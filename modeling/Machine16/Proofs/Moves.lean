import Machine16.Proofs.Execution
import Machine16.Proofs.FlatMemory

/-! What can happen to a machine. Its host steps it, works on its stack and raises interrupts; a run
is any number of such moves, each of which succeeds. A step does what the reference says of the
instruction that it fetches, also where that lies around the end of the address space. -/
namespace Machine16

variable {μ : Type} [Device μ]

namespace Exec

variable {α β : Type}

omit [Device μ] in
lemma bind_eq_ok {x : Exec μ α} {y : α → Exec μ β} {m m' : Machine μ} {b : β} :
    (x >>= y) m = .ok b m' ↔ ∃ a u, x m = .ok a u ∧ y a u = .ok b m' := Update.bind_eq_ok

omit [Device μ] in
/-- An operation whose result is not used succeeds as it does itself. -/
lemma discard_eq_ok {x : Exec μ α} {m m' : Machine μ} :
    (do let _ ← x : Exec μ Unit) m = .ok () m' ↔ ∃ a, x m = .ok a m' := by
  constructor
  · intro h
    obtain ⟨a, u, hx, heq⟩ := bind_eq_ok.mp h
    cases heq
    exact ⟨a, hx⟩
  · rintro ⟨a, h⟩
    exact bind_eq_ok.mpr ⟨a, m', h, rfl⟩

omit [Device μ] in
/-- What a successful operation does is what its view function says. -/
lemma Refines.of_ok {x : Exec μ α} {f : View μ → Option (α × View μ)} (h : Refines x f)
    {m m' : Machine μ} {a : α} (hm : x m = .ok a m') : f m.view = some (a, m'.view) := by
  rw [← h m, hm]
  rfl

omit [Device μ] in
lemma Refines.view_of_ok {x : Exec μ Unit} {f : View μ → Option (View μ)}
    (h : Refines x fun v => (f v).map fun v => ((), v)) {m m' : Machine μ} (hm : x m = .ok () m') :
    f m.view = some m'.view := by
  obtain ⟨v, hv, heq⟩ := Option.map_eq_some_iff.mp (h.of_ok hm)
  rw [hv, (Prod.mk.inj heq).2]

lemma fetchByte_eq_ok {m m' : Machine μ} {b : Byte} (h : fetchByte m = .ok b m') :
    m.view.readByte? (m.view.reg .ip) = some b ∧
      m'.view = m.view.set .ip (m.view.reg .ip + 1) := by
  obtain ⟨b', hb, heq⟩ := Option.map_eq_some_iff.mp (Refines.fetchByte.of_ok h)
  obtain ⟨rfl, hview⟩ := Prod.mk.inj heq
  exact ⟨hb, hview.symm⟩

/-- However an operand is fetched, it is read as the reference reads it. -/
lemma fetchSlot_eq_ok {s : Slot} {m m' : Machine μ} {a : s.Fetched} (h : fetchSlot s m = .ok a m') :
    m'.view = m.view.set .ip (m.view.reg .ip + UInt16.ofNat s.width) ∧
      ∃ o : Operand Word, o.slot = s ∧ s.reading a = (o, o.word m'.view.reg) := by
  cases s with
  | literal | address =>
    obtain ⟨w, _, heq⟩ := Option.map_eq_some_iff.mp (Refines.fetchWord.of_ok h)
    exact ⟨(Prod.mk.inj heq).2.symm, _, rfl, rfl⟩
  | byte =>
    obtain ⟨_, hview⟩ := fetchByte_eq_ok h
    exact ⟨hview, _, rfl, rfl⟩
  | register | pointer | indirect =>
    obtain ⟨b, _, heq⟩ := Option.map_eq_some_iff.mp (Refines.fetchSelected.of_ok h)
    obtain ⟨rfl, hview⟩ := Prod.mk.inj heq
    rw [← hview]
    exact ⟨rfl, _, rfl, rfl⟩

lemma fetch_eq_ok {f : Format} {m m' : Machine μ} {a : f.Fetched} (h : fetch f m = .ok a m') :
    m'.view = m.view.set .ip (m.view.reg .ip + UInt16.ofNat f.width) ∧
      ∃ os, f.readings a = Operand.readings m.view.reg (m.view.reg .ip) os := by
  induction f generalizing m with
  | nil =>
    cases h
    refine ⟨View.ext (fun r => ?_) rfl rfl rfl rfl rfl, [], rfl⟩
    by_cases hr : r = .ip <;> simp [hr, Format.width]
  | cons s f ih =>
    obtain ⟨a₁, u, h₁, h⟩ := bind_eq_ok.mp h
    obtain ⟨as, u', h₂, h⟩ := bind_eq_ok.mp h
    cases h
    obtain ⟨hview, o, hslot, hread⟩ := fetchSlot_eq_ok h₁
    obtain ⟨hview', os, hreads⟩ := ih h₂
    have hip : u.view.reg .ip = m.view.reg .ip + UInt16.ofNat s.width := by simp [hview]
    refine ⟨?_, o :: os, ?_⟩
    · rw [hview', hip, hview, View.set_set, Format.width_cons, UInt16.ofNat_add, UInt16.add_assoc]
    · rw [hview] at hreads hread
      simp only [Format.readings, Operand.readings, hread, hslot, hreads, View.reg_set, reduceIte]
      exact congrArg _ (Operand.readings_update _ _ _ _)

/-- Fetches the instruction at `ip`, if there is one. -/
def fetchInstruction : Exec μ (Option (Instruction Word)) := do
  match Opcode.ofByte? (← fetchByte) with
  | none => return none
  | some op =>
    let a ← fetch op.format
    return some ⟨op, (op.format.readings a).map Prod.fst⟩

end Exec

/-- The view with `ip` past an instruction. -/
abbrev View.past {μ : Type} (v : View μ) (i : Instruction Word) : View μ :=
  v.set .ip (v.reg .ip + UInt16.ofNat i.opcode.size)

lemma Operand.map_fst_readings (reg : Register → Word) (ip : Word) (os : List (Operand Word)) :
    (readings reg ip os).map Prod.fst = os := by
  induction os generalizing ip with
  | nil => rfl
  | cons o os ih => simp only [readings, List.map_cons, ih]

namespace Machine

/-- The instruction at `ip`, if there is one. -/
def instruction? (m : Machine μ) : Option (Instruction Word) :=
  match Exec.fetchInstruction m with
  | .ok i _ => i
  | .error _ _ => none

/-- The next step executes an instruction. -/
structure Executes (m : Machine μ) (i : Instruction Word) : Prop where
  running : m.cpu.halted = false
  instruction : m.instruction? = some i

/-- The next step executes an instruction that comes down to an action. -/
structure Does (m : Machine μ) (i : Instruction Word) (a : Action) : Prop extends Executes m i where
  action : i.action? m.view.reg = some a

/-- An instruction is there if its opcode and its operands can be fetched. -/
lemma instruction?_eq_some {m : Machine μ} {i : Instruction Word} :
    m.instruction? = some i ↔ ∃ code m₁ a m₂, Exec.fetchByte m = .ok code m₁ ∧
      Opcode.ofByte? code = some i.opcode ∧ Exec.fetch i.opcode.format m₁ = .ok a m₂ ∧
      (i.opcode.format.readings a).map Prod.fst = i.operands := by
  constructor
  · intro h
    rw [instruction?] at h
    split at h
    · rename_i i' m₂ hm
      subst h
      obtain ⟨code, m₁, hcode, hm⟩ := Exec.bind_eq_ok.mp hm
      cases hop : Opcode.ofByte? code with
      | none =>
        rw [hop] at hm
        cases hm
      | some op =>
        rw [hop] at hm
        obtain ⟨a, u, ha, hm⟩ := Exec.bind_eq_ok.mp hm
        cases hm
        exact ⟨code, m₁, a, _, hcode, hop, ha, rfl⟩
    · cases h
  · rintro ⟨code, m₁, a, m₂, hcode, hop, ha, hos⟩
    have hm : Exec.fetchInstruction m = .ok (some i) m₂ := by
      rw [Exec.fetchInstruction, Exec.bind_of_ok hcode, hop]
      refine (Exec.bind_of_ok ha).trans ?_
      rw [hos]
      rfl
    rw [instruction?, hm]

/-- The operands of an instruction that is executed are read as the reference reads them. -/
lemma Executes.readings {m : Machine μ} {i : Instruction Word} (h : m.Executes i) :
    ∃ a, i.opcode.format.readings a =
      Operand.readings m.view.reg (m.view.reg .ip + 1) i.operands := by
  obtain ⟨code, m₁, a, m₂, hcode, -, ha, hos⟩ := instruction?_eq_some.mp h.instruction
  obtain ⟨-, os, hread⟩ := Exec.fetch_eq_ok ha
  rw [hread, Operand.map_fst_readings] at hos
  subst hos
  exact ⟨a, hread.trans (Exec.readings_of_view_eq (Exec.fetchByte_eq_ok hcode).2 _)⟩

/-- The instruction that is decoded at `ip` is executed, if it does not go beyond the end of the
address space. -/
lemma executes_of_decode [Bytewise μ] {m : Machine μ} (hrun : m.cpu.halted = false) {ip : Word}
    (hip : m.view.reg .ip = ip) {i : Instruction Word} (hend : ip.toNat + i.opcode.size ≤ 0x10000)
    {code : Byte} {bs : List Byte} (h : m.view.bytesFrom? ip i.opcode.size = some (code :: bs))
    (hi : Instruction.decode ip code bs = .ok (i, [])) : m.Executes i := by
  subst hip
  obtain ⟨op, os⟩ := i
  obtain ⟨hop, hos⟩ : Opcode.ofByte? code = some op ∧
      Operand.decodeAll? op.format bs = some (os, []) := by
    unfold Instruction.decode at hi
    split at hi
    · cases hi
    · split at hi
      · cases hi
      · rename_i hop _ _ _ hos
        cases hi
        exact ⟨hop, hos⟩
  rw [Opcode.size, Format.size_eq] at h hend
  obtain ⟨_, hcode, h⟩ := Option.bind_eq_some_iff.mp h
  obtain ⟨_, hbs, h⟩ := Option.bind_eq_some_iff.mp h
  cases h
  obtain ⟨m₁, hm₁, hview₁⟩ := Exec.observe_eq_some.mp
    ((Exec.Refines.fetchByte m).trans (congrArg (Option.map _) hcode))
  rw [← View.bytesFrom?_set _ .ip (m.view.reg .ip + 1), ← hview₁] at hbs
  have hip₁ : m₁.view.reg .ip = m.view.reg .ip + 1 := by simp [hview₁]
  rw [Nat.add_comm op.format.width] at hend
  have hend₁ : (m.view.reg .ip + 1).toNat + op.format.width ≤ 0x10000 := Exec.add_le_of_add_le hend
  obtain ⟨a, os', hfetch, hdecode, hread⟩ := Exec.fetch_of_some op.format m₁ hip₁ hend₁ hbs
  cases hos.symm.trans hdecode
  obtain ⟨m₂, hm₂, -⟩ := Exec.observe_eq_some.mp hfetch
  refine ⟨hrun, instruction?_eq_some.mpr ⟨code, m₁, a, m₂, hm₁, hop, hm₂, ?_⟩⟩
  rw [hread, Operand.map_fst_readings]

end Machine

namespace Exec

/-- A step is the effect of the instruction that it executes. -/
lemma step_of_executes {m : Machine μ} {i : Instruction Word} (h : m.Executes i) :
    observe (step m) = i.effect? m.view := by
  obtain ⟨code, m₁, a, m₂, hcode, hop, ha, hos⟩ := Machine.instruction?_eq_some.mp h.instruction
  obtain ⟨hview₂, os, hread⟩ := fetch_eq_ok ha
  rw [hread, Operand.map_fst_readings] at hos
  subst hos
  have hstep := (step_of_running h.running).trans (bind_of_ok hcode)
  exact execute_of_fetch hstep hop (fetchByte_eq_ok hcode).2 ha hview₂ hread

lemma step_of_does {m : Machine μ} {i : Instruction Word} {a : Action} (h : m.Does i a) :
    observe (step m) = (a.run? (m.view.past i)).map fun v => (a.asks, v) := by
  rw [step_of_executes h.toExecutes, Instruction.effect?, h.action]
  simp only [Option.bind_eq_bind, Option.bind_some, Option.pure_def, Option.map_eq_bind]
  rfl

end Exec

namespace Machine

/-- What a successful step does is what the instruction says. -/
lemma Does.run? {m m' : Machine μ} {i : Instruction Word} {a : Action} {s : Step} (h : m.Does i a)
    (hm : Exec.step m = .ok s m') : a.run? (m.view.past i) = some m'.view := by
  have hstep := (Exec.step_of_does h).symm.trans (congrArg Exec.observe hm)
  obtain ⟨v, hv, heq⟩ := Option.map_eq_some_iff.mp hstep
  rwa [(Prod.mk.inj heq).2] at hv

/-- What the instruction says can be done, a step does. -/
lemma Does.step {m : Machine μ} {i : Instruction Word} {a : Action} {v : View μ} (h : m.Does i a)
    (hv : a.run? (m.view.past i) = some v) : ∃ m', Exec.step m = .ok a.asks m' ∧ m'.view = v := by
  refine Exec.observe_eq_some.mp ((Exec.step_of_does h).trans ?_)
  rw [hv]
  rfl

end Machine

namespace Exec

/-- All that a successful step can be: nothing if the machine has halted, a byte passed over, or an
instruction. -/
lemma step_cases {m m' : Machine μ} {s : Step} (h : step m = .ok s m') :
    m' = m ∨ m'.view = m.view.set .ip (m.view.reg .ip + 1) ∨
      ∃ i a, m.Does i a ∧ a.run? (m.view.past i) = some m'.view := by
  cases hrun : m.cpu.halted with
  | true =>
    cases h.symm.trans (step_of_halted hrun)
    exact .inl rfl
  | false =>
    obtain ⟨code, m₁, hcode, hexecute⟩ := bind_eq_ok.mp ((step_of_running hrun).symm.trans h)
    rw [execute] at hexecute
    cases hop : Opcode.ofByte? code with
    | none =>
      rw [hop] at hexecute
      cases hexecute
      exact .inr (.inl (fetchByte_eq_ok hcode).2)
    | some op =>
      rw [hop] at hexecute
      obtain ⟨a, m₂, ha, -⟩ := bind_eq_ok.mp hexecute
      have hi : m.Executes ⟨op, (op.format.readings a).map Prod.fst⟩ :=
        ⟨hrun, Machine.instruction?_eq_some.mpr ⟨code, m₁, a, m₂, hcode, hop, ha, rfl⟩⟩
      have heffect := (step_of_executes hi).symm.trans (congrArg observe h)
      obtain ⟨act, hact, heffect⟩ := Option.bind_eq_some_iff.mp heffect
      obtain ⟨v, hv, heq⟩ := Option.bind_eq_some_iff.mp heffect
      rw [(Prod.mk.inj (Option.some.inj heq)).2] at hv
      exact .inr (.inr ⟨_, act, ⟨hi, hact⟩, hv⟩)

end Exec

/-- What a host can do with a machine. -/
inductive Move
  | step
  | push (w : Word)
  | pop
  | pushState
  | popState
  | interrupt (vector : Word)
  deriving DecidableEq, Repr

namespace Move

def perform : Move → Exec μ Unit
  | step => do let _ ← Exec.step
  | push w => Exec.push w
  | pop => do let _ ← Exec.pop
  | pushState => Exec.pushState
  | popState => Exec.popState
  | interrupt vector => Exec.interrupt vector

lemma total {P : μ → Prop} (hP : Reliable P) (a : Move) : Exec.Total P (a.perform : Exec μ Unit) := by
  cases a with
  | step => exact (Exec.Total.step hP).bind fun _ => .pure ()
  | push w => exact .push hP w
  | pop => exact (Exec.Total.of_madeOf hP .pop).bind fun _ => .pure ()
  | pushState => exact .of_madeOf hP .pushState
  | popState => exact .popState hP
  | interrupt vector => exact .of_madeOf hP (.interrupt vector)

end Move

/-- A run from one machine to another: moves that succeed, each of which is allowed where it is
made. -/
inductive Run (allowed : Machine μ → Move → Prop) : Machine μ → Machine μ → Prop
  | refl (m : Machine μ) : Run allowed m m
  | move {m u m' : Machine μ} {a : Move} (run : Run allowed m u) (ok : allowed u a)
      (h : a.perform u = .ok () m') : Run allowed m m'

namespace Run

variable {allowed : Machine μ → Move → Prop}

/-- What every allowed move preserves, a run preserves. -/
lemma preserves {P : Machine μ → Prop}
    (hP : ∀ m a m', allowed m a → a.perform m = .ok () m' → P m → P m') {m m' : Machine μ}
    (run : Run allowed m m') (h : P m) : P m' := by
  induction run with
  | refl => exact h
  | move _ ok hmove ih => exact hP _ _ _ ok hmove ih

lemma trans {m u m' : Machine μ} (run : Run allowed m u) (run' : Run allowed u m') :
    Run allowed m m' := by
  induction run' with
  | refl => exact run
  | move _ ok h ih => exact .move ih ok h

lemma memory {P : μ → Prop} (hP : Reliable P) {m m' : Machine μ} (run : Run allowed m m')
    (h : P m.memory) : P m'.memory := by
  refine run.preserves (P := fun m => P m.memory) (fun m a m' _ hmove h => ?_) h
  obtain ⟨_, u, hu, h'⟩ := a.total hP m h
  cases hmove.symm.trans hu
  exact h'

end Run

end Machine16
