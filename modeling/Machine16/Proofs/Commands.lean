import Mathlib.Logic.Function.Basic
import Mathlib.Tactic.Choose
import Machine16.Cpu.Execute

/-! What the processor does, command by command. Each of its operations is a tree of commands that goes on
as the answers say, and the tree is the same for every memory. What holds of the commands and goes through
sequences then holds of all operations. -/
namespace Machine16

/-- What the processor does at a time. -/
inductive Command
  /-- Looks at its own state. -/
  | look
  | fetchByte
  | fetchWord
  | load (address : Word)
  | store (address w : Word)
  | set (r : Register) (w : Word)
  | resize (frameSize : Word)
  | handle (inHandler : Bool)
  | halt
  | signal (e : Event)

namespace Command

abbrev Answer : Command → Type
  | look => Cpu
  | fetchByte => Byte
  | fetchWord | load _ => Word
  | store .. | set .. | resize _ | handle _ | halt | signal _ => Unit

def exec {μ : Type} [Device μ] : (c : Command) → Exec μ c.Answer
  | look => Exec.cpu
  | fetchByte => Exec.fetchByte
  | fetchWord => Exec.fetchWord
  | load address => Exec.readWord address
  | store address w => Exec.store address w
  | set r w => Exec.set r w
  | resize frameSize => Exec.resizeFrame fun _ => frameSize
  | handle inHandler => Exec.modifyCpu fun c => { c with inHandler }
  | halt => Exec.modifyCpu fun c => { c with halted := true }
  | signal e => Exec.emit e

/-- The command works on registers, memory and frames. -/
def Works : Command → Prop
  | look | load _ | store .. | set .. | resize _ | handle _ => True
  | fetchByte | fetchWord | halt | signal _ => False

end Command

/-- Commands one after the other, each chosen by the answers to those before it. -/
inductive Procedure (α : Type)
  | done (a : α)
  | step (c : Command) (next : c.Answer → Procedure α)

namespace Procedure

variable {α β : Type}

def bind : Procedure α → (α → Procedure β) → Procedure β
  | done a, f => f a
  | step c next, f => step c fun a => (next a).bind f

def exec {μ : Type} [Device μ] : Procedure α → Exec μ α
  | done a => pure a
  | step c next => do
    let a ← c.exec
    (next a).exec

/-- All commands of the procedure are allowed. -/
def Only (allowed : Command → Prop) : Procedure α → Prop
  | done _ => True
  | step c next => allowed c ∧ ∀ a, (next a).Only allowed

lemma exec_bind {μ : Type} [Device μ] (d : Procedure α) (f : α → Procedure β) :
    (d.bind f).exec = (d.exec >>= fun a => (f a).exec : Exec μ β) := by
  induction d with
  | done a => rfl
  | step c next ih => simp only [bind, exec, ih, bind_assoc]

namespace Only

variable {allowed allowed' : Command → Prop} {d : Procedure α}

lemma bind {f : α → Procedure β} (hd : d.Only allowed) (hf : ∀ a, (f a).Only allowed) :
    (d.bind f).Only allowed := by
  induction d with
  | done a => exact hf a
  | step c next ih => exact ⟨hd.1, fun a => ih a (hd.2 a)⟩

lemma mono (hd : d.Only allowed) (h : ∀ c, allowed c → allowed' c) : d.Only allowed' := by
  induction d with
  | done a => trivial
  | step c next ih => exact ⟨h c hd.1, fun a => ih a (hd.2 a)⟩

end Only

end Procedure

namespace Exec

variable {α β : Type} {allowed allowed' : Command → Prop}

/-- On every memory the operation is one and the same procedure of allowed commands. -/
def MadeOf (allowed : Command → Prop) (x : (μ : Type) → [Device μ] → Exec μ α) : Prop :=
  ∃ d : Procedure α, d.Only allowed ∧ ∀ (μ : Type) [Device μ], x μ = d.exec

namespace MadeOf

lemma pure (a : α) : MadeOf allowed fun _ => pure a := ⟨.done a, trivial, fun _ => rfl⟩

lemma command {c : Command} (hc : allowed c) : MadeOf allowed fun _ => c.exec :=
  ⟨.step c .done, ⟨hc, fun _ => trivial⟩, fun _ => (bind_pure _).symm⟩

lemma bind {x : (μ : Type) → [Device μ] → Exec μ α} {y : α → (μ : Type) → [Device μ] → Exec μ β}
    (hx : MadeOf allowed x) (hy : ∀ a, MadeOf allowed (y a)) :
    MadeOf allowed fun μ => x μ >>= fun a => y a μ := by
  obtain ⟨d, hd, hx⟩ := hx
  choose f hf hy using hy
  refine ⟨d.bind f, hd.bind hf, fun μ _ => ?_⟩
  simp only [Procedure.exec_bind, hx, hy]

lemma ite {c : Prop} [Decidable c] {x y : (μ : Type) → [Device μ] → Exec μ α}
    (hx : MadeOf allowed x) (hy : MadeOf allowed y) :
    MadeOf allowed fun μ => if c then x μ else y μ := by
  by_cases hc : c
  · simpa only [if_pos hc] using hx
  · simpa only [if_neg hc] using hy

lemma mono {x : (μ : Type) → [Device μ] → Exec μ α} (hx : MadeOf allowed x)
    (h : ∀ c, allowed c → allowed' c) : MadeOf allowed' x := by
  obtain ⟨d, hd, hx⟩ := hx
  exact ⟨d, hd.mono h, hx⟩

/-- What holds of allowed commands and goes through sequences holds of all that is made of them. -/
lemma preserves {μ : Type} [Device μ] {P : {α : Type} → Exec μ α → Prop}
    (hpure : ∀ {α : Type} (a : α), P (Pure.pure a)) (hcommand : ∀ c, allowed c → P c.exec)
    (hbind : ∀ {α β : Type} {x : Exec μ α} {y : α → Exec μ β}, P x → (∀ a, P (y a)) → P (x >>= y))
    {x : (μ : Type) → [Device μ] → Exec μ α} (hx : MadeOf allowed x) : P (x μ) := by
  obtain ⟨d, hd, hx⟩ := hx
  rw [hx μ]
  clear hx
  induction d with
  | done a => exact hpure a
  | step c next ih => exact hbind (hcommand c hd.1) fun a => ih a (hd.2 a)

section Work

open Command (Works)

lemma cpu : MadeOf Works fun _ => cpu := command (c := .look) trivial

lemma get (r : Register) : MadeOf Works fun _ => get r := cpu.bind fun c => pure (c.get r)

lemma set (r : Register) (w : Word) : MadeOf Works fun _ => set r w := command (c := .set r w) trivial

lemma readWord (address : Word) : MadeOf Works fun _ => readWord address :=
  command (c := .load address) trivial

lemma store (address w : Word) : MadeOf Works fun _ => store address w :=
  command (c := .store address w) trivial

lemma resizeFrame (f : Word → Word) : MadeOf Works fun _ => resizeFrame f :=
  cpu.bind fun c => command (c := .resize (f c.frameSize)) trivial

lemma handle (b : Bool) : MadeOf Works fun _ => modifyCpu fun c => { c with inHandler := b } :=
  command (c := .handle b) trivial

lemma push (w : Word) : MadeOf Works fun _ => push w :=
  (get .sp).bind fun sp => (store sp w).bind fun _ => (set .sp _).bind fun _ => resizeFrame _

lemma pop : MadeOf Works fun _ => pop :=
  (get .sp).bind fun _ => (set .sp _).bind fun _ => (resizeFrame _).bind fun _ => readWord _

lemma pushRegisters (rs : List Register) : MadeOf Works fun _ => pushRegisters rs := by
  induction rs with
  | nil => exact pure ()
  | cons r rs ih => exact (get r).bind fun w => (push w).bind fun _ => ih

lemma popRegisters (rs : List Register) : MadeOf Works fun _ => popRegisters rs := by
  induction rs with
  | nil => exact pure ()
  | cons r rs ih => exact pop.bind fun w => (set r w).bind fun _ => ih

lemma drop (n : Nat) : MadeOf Works fun _ => drop n := by
  induction n with
  | zero => exact pure ()
  | succ n ih => exact pop.bind fun _ => ih

lemma pushState : MadeOf Works fun _ => pushState :=
  (pushRegisters _).bind fun _ => (get .ip).bind fun ip => (push ip).bind fun _ => cpu.bind fun _ =>
    (push _).bind fun _ => (get .sp).bind fun sp => (set .fp sp).bind fun _ => resizeFrame _

lemma popState : MadeOf Works fun _ => popState :=
  (get .fp).bind fun base => (set .sp base).bind fun _ => pop.bind fun _ =>
    (resizeFrame _).bind fun _ => pop.bind fun ip => (set .ip ip).bind fun _ =>
    (popRegisters _).bind fun _ => pop.bind fun _ => (drop _).bind fun _ => (set .fp _).bind fun _ =>
    (get .sp).bind fun _ => resizeFrame _

lemma call (address : Word) : MadeOf Works fun _ => call address :=
  pushState.bind fun _ => set .ip address

lemma jumpIf (relation : Word → Word → Bool) (w address : Word) :
    MadeOf Works fun _ => jumpIf relation w address :=
  (get .acc).bind fun _ => ite (set .ip address) (pure ())

lemma change (r : Register) (f : Word → Word) : MadeOf Works fun _ => change r f :=
  (get r).bind fun w => set r (f w)

/-- Most instructions do nothing but work. -/
lemma perform_works {op : Opcode} (hslp : op ≠ .slp) (hhlt : op ≠ .hlt) (hint : op ≠ .int)
    (a : op.format.Fetched) : MadeOf Works fun _ => perform op a := by
  unfold Exec.perform
  cases op with
  | slp => exact absurd rfl hslp
  | hlt => exact absurd rfl hhlt
  | int => exact absurd rfl hint
  | movRegMem | movLitMem | movLitRegPtr => exact store _ _
  | movMemReg | movRegPtrReg | movLitOffReg => exact (readWord _).bind fun w => set _ w
  | incReg | decReg | lsfRegLit | lsfRegReg | rsfRegLit | rsfRegReg => exact change _ _
  | jneLit | jneReg | jeqLit | jeqReg | jltLit | jltReg | jgtLit | jgtReg | jleLit | jleReg | jgeLit
  | jgeReg => exact jumpIf _ _ _
  | pshLit | pshReg => exact push _
  | pop => exact pop.bind fun w => set _ w
  | calLit | calReg => exact call _
  | ret => exact popState
  | rti => exact (handle false).bind fun _ => popState
  | _ => exact set _ _

end Work

section

/-- What nothing but work is made of is made of commands. -/
lemma of_works {x : (μ : Type) → [Device μ] → Exec μ α} (hx : MadeOf Command.Works x) :
    MadeOf (fun _ => True) x := hx.mono fun _ _ => trivial

lemma emit (e : Event) : MadeOf (fun _ => True) fun _ => emit e := command (c := .signal e) trivial

lemma interrupt (vector : Word) : MadeOf (fun _ => True) fun _ => interrupt vector := by
  have htail (handler : Word) : MadeOf (fun _ => True) fun _ => (do
      modifyCpu fun c => { c with inHandler := true }
      Exec.set .ip handler
      Exec.emit (.interrupt (vector &&& 0xF))) :=
    (of_works (handle true)).bind fun _ => (of_works (set .ip handler)).bind fun _ => emit _
  exact (of_works (get .im)).bind fun _ => ite (pure ()) ((of_works cpu).bind fun _ =>
    (of_works (readWord _)).bind fun handler => (of_works cpu).bind fun _ =>
    ite ((of_works (push 0)).bind fun _ => (of_works pushState).bind fun _ => htail handler) (htail handler))

lemma perform (op : Opcode) (a : op.format.Fetched) : MadeOf (fun _ => True) fun _ => perform op a := by
  by_cases hslp : op = .slp
  · subst hslp
    exact emit _
  by_cases hhlt : op = .hlt
  · subst hhlt
    exact (command (c := .halt) trivial).bind fun _ => emit _
  by_cases hint : op = .int
  · subst hint
    exact interrupt _
  · exact of_works (perform_works hslp hhlt hint a)

lemma fetchByte : MadeOf (fun _ => True) fun _ => fetchByte := command (c := .fetchByte) trivial

lemma fetchSlot (s : Slot) : MadeOf (fun _ => True) fun _ => fetchSlot s := by
  cases s with
  | literal | address => exact command (c := .fetchWord) trivial
  | byte => exact fetchByte
  | register | pointer | indirect =>
    exact (fetchByte.bind fun b => pure (Register.ofSelector b)).bind fun r =>
      (of_works (get r)).bind fun w => pure (r, w)

lemma fetch (f : Format) : MadeOf (fun _ => True) fun _ => fetch f := by
  induction f with
  | nil => exact pure ()
  | cons s f ih => exact (fetchSlot s).bind fun a => ih.bind fun as => pure (a, as)

/-- A step is the same procedure whatever the memory. -/
lemma step : MadeOf (fun _ => True) fun _ => step := by
  have hexecute (code : Byte) : MadeOf (fun _ => True) fun _ => execute code := by
    unfold execute
    cases Opcode.ofByte? code with
    | none => exact pure Step.next
    | some op => exact (fetch op.format).bind fun a => (perform op a).bind fun _ => pure _
  exact (of_works cpu).bind fun _ => ite (pure Step.halt) (fetchByte.bind fun code => hexecute code)

end

end MadeOf

end Exec

end Machine16
