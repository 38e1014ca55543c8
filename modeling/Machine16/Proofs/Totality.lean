import Mathlib.Logic.Function.Iterate
import Machine16.Proofs.Commands

/-! Machines that cannot fail. If a property of memories lets every access succeed and outlives
writes, then nothing that the processor does fails, and the property holds after every step. -/
namespace Machine16

variable {μ α β : Type} [Device μ]

/-- The machine after a step, also after one that has failed. -/
def Machine.next (m : Machine μ) : Machine μ :=
  match Exec.step m with
  | .ok _ m' => m'
  | .error _ m' => m'

/-- No access to a memory with the property fails, and writes preserve it. -/
structure Reliable (P : μ → Prop) : Prop where
  readByte {memory} (h : P memory) (address : Word) :
    ∃ b, Device.readByte memory address = .ok b
  readWord {memory} (h : P memory) (address : Word) :
    ∃ w, Device.readWord memory address = .ok w
  writeWord {memory} (h : P memory) (address w : Word) :
    ∃ memory', Device.writeWord address w memory = .ok () memory' ∧ P memory'

namespace Exec

/-- An operation succeeds on all memories with the property, and preserves it. -/
def Total (P : μ → Prop) (x : Exec μ α) : Prop :=
  ∀ m, P m.memory → ∃ a m', x m = .ok a m' ∧ P m'.memory

namespace Total

variable {P : μ → Prop}

omit [Device μ]

lemma pure (a : α) : Total P (pure a) := fun m h => ⟨a, m, rfl, h⟩

lemma bind {x : Exec μ α} {y : α → Exec μ β} (hx : Total P x) (hy : ∀ a, Total P (y a)) :
    Total P (x >>= y) := by
  intro m h
  obtain ⟨a, m', hm, h'⟩ := hx m h
  obtain ⟨b, m'', hm', h''⟩ := hy a m' h'
  refine ⟨b, m'', ?_, h''⟩
  change EStateM.bind x y m = _
  simp only [EStateM.bind, hm, hm']

lemma cpu : Total P cpu := fun m h => ⟨m.cpu, m, rfl, h⟩

lemma modifyCpu (f : Cpu → Cpu) : Total P (modifyCpu f) := fun m h => ⟨(), ⟨f m.cpu, m.memory⟩, rfl, h⟩

lemma get (r : Register) : Total P (get r) := fun m h => ⟨m.cpu.get r, m, rfl, h⟩

lemma emit (e : Event) : Total P (emit e) := modifyCpu _

lemma set (r : Register) (w : Word) : Total P (set r w) :=
  (modifyCpu _).bind fun _ => emit _

end Total

namespace Total

variable {P : μ → Prop} (hP : Reliable P)

include hP

lemma readByte (address : Word) : Total P (readByte address) := by
  intro m h
  obtain ⟨b, hb⟩ := hP.readByte h address
  exact ⟨b, m, by rw [Exec.readByte_eq, hb, Update.ofExcept_ok], h⟩

lemma readWord (address : Word) : Total P (readWord address) := by
  intro m h
  obtain ⟨w, hw⟩ := hP.readWord h address
  exact ⟨w, m, by rw [Exec.readWord_eq, hw, Update.ofExcept_ok], h⟩

lemma store (address w : Word) : Total P (store address w) := by
  have hwrite : Total P (writeWord address w) := by
    rintro ⟨c, memory⟩ h
    obtain ⟨memory', hw, h'⟩ := hP.writeWord h address w
    exact ⟨(), ⟨c, memory'⟩, by rw [Exec.writeWord_eq, hw, Update.within_ok], h'⟩
  exact hwrite.bind fun _ => modifyCpu _

lemma command (c : Command) : Total P c.exec := by
  cases c with
  | look => exact cpu
  | fetchByte =>
    exact (get .ip).bind fun ip => (readByte hP ip).bind fun b => (modifyCpu _).bind fun _ => pure b
  | fetchWord =>
    exact (get .ip).bind fun ip => (readWord hP ip).bind fun w => (modifyCpu _).bind fun _ => pure w
  | load address => exact readWord hP address
  | store address w => exact store hP address w
  | set r w => exact set r w
  | resize _ | handle _ | halt | signal _ =>
    simp only [Command.exec, Exec.resizeFrame, Exec.emit]
    exact modifyCpu _

/-- What is made of commands succeeds as they do. -/
lemma of_madeOf {allowed : Command → Prop} {x : (μ : Type) → [Device μ] → Exec μ α}
    (hx : MadeOf allowed x) : Total P (x μ) :=
  hx.preserves (P := Total P) pure (fun c _ => command hP c) bind

lemma push (w : Word) : Total P (push w) := of_madeOf hP (.push w)

lemma popState : Total P popState := of_madeOf hP .popState

lemma step : Total P step := of_madeOf hP .step

end Total
end Exec

/-- Steps on a memory with the property preserve it. -/
lemma Machine.iterate_next {P : μ → Prop} (hP : Reliable P) {m : Machine μ} (h : P m.memory)
    (n : Nat) : P (Machine.next^[n] m).memory := by
  induction n with
  | zero => exact h
  | succ n ih =>
    obtain ⟨s, m', hm, h'⟩ := Exec.Total.step hP _ ih
    rw [Function.iterate_succ_apply', Machine.next, hm]
    exact h'

end Machine16
