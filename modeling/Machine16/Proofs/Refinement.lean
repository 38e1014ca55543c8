import Mathlib.Tactic.SplitIfs
import Machine16.Proofs.Reference

/-! The processor does what the reference says. Operations of the processor are compared with
functions on views, which have no result where the operation fails; the comparison goes through
sequences of operations, so that each operation is compared once. -/
namespace Machine16

variable {μ α β : Type}

namespace View

lemma ext {v w : View μ} (hreg : ∀ r, v.reg r = w.reg r) (hframe : v.frameSize = w.frameSize)
    (hhandler : v.inHandler = w.inHandler) (hhalted : v.halted = w.halted)
    (htable : v.vectorTable = w.vectorTable) (hmemory : v.memory = w.memory) : v = w := by
  obtain ⟨reg, _, _, _, _, _⟩ := v
  obtain ⟨reg', _, _, _, _, _⟩ := w
  obtain rfl : reg = reg' := funext hreg
  simp_all

@[simp] lemma reg_set (v : View μ) (r s : Register) (w : Word) :
    (v.set r w).reg s = if s = r then w else v.reg s := Function.update_apply _ _ _ _

@[simp] lemma frameSize_set (v : View μ) (r : Register) (w : Word) :
    (v.set r w).frameSize = v.frameSize := rfl

@[simp] lemma inHandler_set (v : View μ) (r : Register) (w : Word) :
    (v.set r w).inHandler = v.inHandler := rfl

@[simp] lemma halted_set (v : View μ) (r : Register) (w : Word) :
    (v.set r w).halted = v.halted := rfl

@[simp] lemma vectorTable_set (v : View μ) (r : Register) (w : Word) :
    (v.set r w).vectorTable = v.vectorTable := rfl

@[simp] lemma memory_set (v : View μ) (r : Register) (w : Word) :
    (v.set r w).memory = v.memory := rfl

@[simp] lemma set_set (v : View μ) (r : Register) (w w' : Word) :
    (v.set r w).set r w' = v.set r w' := by
  simp [set]

@[simp] lemma set_reg (v : View μ) (r : Register) : v.set r (v.reg r) = v := by
  simp [set]

@[simp] lemma reg_withStack (v : View μ) (sp frameSize : Word) (r : Register) :
    (v.withStack sp frameSize).reg r = if r = .sp then sp else v.reg r :=
  Function.update_apply _ _ _ _

@[simp] lemma frameSize_withStack (v : View μ) (sp frameSize : Word) :
    (v.withStack sp frameSize).frameSize = frameSize := rfl

@[simp] lemma inHandler_withStack (v : View μ) (sp frameSize : Word) :
    (v.withStack sp frameSize).inHandler = v.inHandler := rfl

@[simp] lemma halted_withStack (v : View μ) (sp frameSize : Word) :
    (v.withStack sp frameSize).halted = v.halted := rfl

@[simp] lemma vectorTable_withStack (v : View μ) (sp frameSize : Word) :
    (v.withStack sp frameSize).vectorTable = v.vectorTable := rfl

@[simp] lemma memory_withStack (v : View μ) (sp frameSize : Word) :
    (v.withStack sp frameSize).memory = v.memory := rfl

@[simp] lemma withStack_set_sp (v : View μ) (w sp frameSize : Word) :
    (v.set .sp w).withStack sp frameSize = v.withStack sp frameSize := by
  simp [withStack, set]

@[simp] lemma withStack_withStack (v : View μ) (sp sp' frameSize frameSize' : Word) :
    (v.withStack sp frameSize).withStack sp' frameSize' = v.withStack sp' frameSize' := by
  simp [withStack]

variable [Device μ]

@[simp] lemma readWord?_set (v : View μ) (r : Register) (w address : Word) :
    (v.set r w).readWord? address = v.readWord? address := rfl

@[simp] lemma readWord?_withStack (v : View μ) (sp frameSize address : Word) :
    (v.withStack sp frameSize).readWord? address = v.readWord? address := rfl

end View

namespace Machine

lemma view_set (m : Machine μ) (r : Register) (w : Word) :
    ({ m with cpu := m.cpu.set r w } : Machine μ).view = m.view.set r w := by
  apply View.ext
  · intro s
    simp only [view, Cpu.get, Cpu.set, Registers.get_set, View.reg_set, eq_comm]
  all_goals rfl

end Machine

namespace Exec

lemma bind_of_ok {x : Exec μ α} {y : α → Exec μ β} {m m' : Machine μ} {a : α}
    (h : x m = .ok a m') : (x >>= y) m = y a m' := Update.bind_of_ok h

lemma bind_of_error {x : Exec μ α} {y : α → Exec μ β} {m m' : Machine μ} {e : MemoryError}
    (h : x m = .error e m') : (x >>= y) m = .error e m' := Update.bind_of_error h

/-- What a program can tell of an outcome: after a failure, nothing. -/
def observe : EStateM.Result MemoryError (Machine μ) α → Option (α × View μ)
  | .ok a m => some (a, m.view)
  | .error _ _ => none

/-- An operation does to every machine what `f` does to its view. -/
def Refines (x : Exec μ α) (f : View μ → Option (α × View μ)) : Prop :=
  ∀ m, observe (x m) = f m.view

namespace Refines

lemma congr {x : Exec μ α} {f g : View μ → Option (α × View μ)} (h : Refines x f)
    (hfg : ∀ v, f v = g v) : Refines x g := fun m => (h m).trans (hfg _)

lemma pure (a : α) : Refines (pure a : Exec μ α) fun v => some (a, v) := fun _ => rfl

lemma bind {x : Exec μ α} {y : α → Exec μ β} {f : View μ → Option (α × View μ)}
    {g : α → View μ → Option (β × View μ)} (hx : Refines x f) (hy : ∀ a, Refines (y a) (g a)) :
    Refines (x >>= y) fun v => (f v).bind fun p => g p.1 p.2 := by
  intro m
  change observe ((x >>= y) m) = (f m.view).bind fun p => g p.1 p.2
  have h := hx m
  cases hm : x m with
  | ok a m' =>
    rw [hm] at h
    rw [bind_of_ok hm, ← h]
    exact hy a m'
  | error e m' =>
    rw [hm] at h
    rw [bind_of_error hm, ← h]
    rfl

/-- An operation that looks at the whole processor is compared machine by machine. -/
lemma cpu_bind {y : Cpu → Exec μ α} {f : View μ → Option (α × View μ)}
    (h : ∀ m, observe (y m.cpu m) = f m.view) : Refines (cpu >>= y) f := h

lemma ite {c : Prop} [Decidable c] {x y : Exec μ α} {f g : View μ → Option (α × View μ)}
    (hx : Refines x f) (hy : Refines y g) :
    Refines (if c then x else y) fun v => if c then f v else g v := by
  split_ifs
  · exact hx
  · exact hy

lemma get (r : Register) : Refines (get r : Exec μ Word) fun v => some (v.reg r, v) := fun _ => rfl

lemma emit (e : Event) : Refines (emit e : Exec μ Unit) fun v => some ((), v) := fun _ => rfl

lemma assign (r : Register) (w : Word) :
    Refines (assign r w : Exec μ Unit) fun v => some ((), v.set r w) := by
  intro m
  exact congrArg (fun v => some ((), v)) (m.view_set r w)

lemma set (r : Register) (w : Word) :
    Refines (set r w : Exec μ Unit) fun v => some ((), v.set r w) :=
  (assign r w).bind fun _ => emit _

lemma resizeFrame (f : Word → Word) : Refines (resizeFrame f : Exec μ Unit) fun v =>
    some ((), v.withStack (v.reg .sp) (f v.frameSize)) := by
  intro m
  refine congrArg (fun v => some ((), v)) (View.ext (fun r => ?_) rfl rfl rfl rfl rfl)
  rw [View.reg_withStack]
  split_ifs with hr
  · rw [hr]
    rfl
  · rfl

lemma setHandler (b : Bool) :
    Refines (modifyCpu fun c => { c with inHandler := b } : Exec μ Unit) fun v =>
      some ((), { v with inHandler := b }) := fun _ => rfl

variable [Device μ]

lemma readWord (address : Word) : Refines (readWord address : Exec μ Word) fun v =>
    (v.readWord? address).map fun w => (w, v) := by
  intro m
  cases h : Device.readWord m.memory address with
  | ok w =>
    simp only [Exec.readWord_eq, View.readWord?, Machine.view, h]
    rfl
  | error e =>
    simp only [Exec.readWord_eq, View.readWord?, Machine.view, h]
    rfl

lemma store (address w : Word) : Refines (store address w : Exec μ Unit) fun v =>
    (v.writeWord? address w).map fun v => ((), v) := by
  have hwrite : Refines (writeWord address w : Exec μ Unit) fun v =>
      (v.writeWord? address w).map fun v => ((), v) := by
    intro m
    obtain ⟨c, memory⟩ := m
    cases h : Device.writeWord address w memory with
    | ok _ memory' =>
      simp only [Exec.writeWord_eq, View.writeWord?, Machine.view, h]
      rfl
    | error e memory' =>
      simp only [Exec.writeWord_eq, View.writeWord?, Machine.view, h]
      rfl
  refine (hwrite.bind fun _ => emit _).congr fun v => ?_
  cases v.writeWord? address w <;> rfl

end Refines
end Exec
end Machine16
