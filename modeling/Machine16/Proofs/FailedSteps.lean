import Machine16.Proofs.Playback

/-! Steps that fail. Most instructions reach for the memory once, before they do anything else: where they
are refused, they have done nothing. A step of such an instruction that fails has moved `ip` past what it has
fetched, and that is all. -/
namespace Machine16

variable {μ α β : Type}

/-- Whether the instruction touches the machine only once it can no longer fail. The others move `sp` before
they read the stack, or build a frame word by word, or have left a handler before they end its frame. -/
def Opcode.isSimple : Opcode → Bool
  | pop | calLit | calReg | ret | rti | int => false
  | _ => true

/-- No more is fetched than the operands take. -/
lemma Format.fetched_le [Device μ] (memory : μ) (address : Word) (f : Format) :
    f.fetched memory address ≤ f.width := by
  induction f generalizing address with
  | nil => exact le_rfl
  | cons s f ih =>
    rw [fetched, width_cons]
    split_ifs
    · exact Nat.add_le_add_left (ih _) _
    · exact Nat.zero_le _

namespace Machine

variable [Device μ] {m : Machine μ} (hrun : m.cpu.halted = false) {code : Byte}
  (hcode : Device.readByte m.memory (m.cpu.get .ip) = .ok code) {op : Opcode}
  (hop : Opcode.ofByte? code = some op)

include hrun hcode hop

lemma fetched_eq : m.fetched = 1 + op.format.fetched m.memory (m.cpu.get .ip + 1) := by
  simp [fetched, hrun, hcode, hop]

lemma fetched_le : m.fetched ≤ op.size := by
  rw [fetched_eq hrun hcode hop, Opcode.size, Format.size_eq, Nat.add_comm]
  exact Nat.add_le_add_right (op.format.fetched_le _ _) 1

end Machine

namespace Exec

/-- An operation that fails has done nothing. -/
def AllOrNothing (x : Exec μ α) : Prop := ∀ m e m', x m = .error e m' → m' = m

/-- An operation succeeds wherever it begins. -/
abbrev Sure (x : Exec μ α) : Prop := Total (fun _ => True) x

namespace AllOrNothing

lemma of_sure {x : Exec μ α} (hx : Sure x) : AllOrNothing x := by
  intro m e m' h
  obtain ⟨a, u, hm, -⟩ := hx m trivial
  cases h.symm.trans hm

/-- What is sure may follow. -/
lemma bind {x : Exec μ α} {y : α → Exec μ β} (hx : AllOrNothing x) (hy : ∀ a, Sure (y a)) :
    AllOrNothing (x >>= y) := by
  intro m e m' h
  cases hm : x m with
  | ok a u =>
    obtain ⟨b, u', hu, -⟩ := hy a u trivial
    rw [bind_of_ok hm, hu] at h
    cases h
  | error _ u =>
    rw [bind_of_error hm] at h
    cases h
    exact hx m e m' hm

/-- What only looks at the machine may come before. -/
lemma look_bind {f : Machine μ → α} {y : α → Exec μ β} (hy : ∀ a, AllOrNothing (y a)) :
    AllOrNothing ((fun m => .ok (f m) m : Exec μ α) >>= y) := by
  intro m e m' h
  rw [bind_of_ok (x := fun m => .ok (f m) m) rfl] at h
  exact hy _ m e m' h

lemma change (r : Register) (f : Word → Word) : AllOrNothing (change r f : Exec μ Unit) :=
  look_bind fun _ => of_sure (.set r _)

lemma jumpIf (relation : Word → Word → Bool) (w address : Word) :
    AllOrNothing (jumpIf relation w address : Exec μ Unit) := by
  refine look_bind fun acc => of_sure ?_
  split
  · exact .set .ip address
  · exact .pure ()

variable [Device μ]

lemma readWord (address : Word) : AllOrNothing (readWord address : Exec μ Word) := by
  intro m e m' h
  rw [Exec.readWord_eq] at h
  cases hw : Device.readWord m.memory address with
  | ok w =>
    rw [hw] at h
    cases h
  | error e =>
    rw [hw] at h
    cases h
    rfl

variable (hμ : Device.Atomic μ)

include hμ

lemma store (address w : Word) : AllOrNothing (store address w : Exec μ Unit) := by
  refine bind ?_ fun _ => .modifyCpu _
  rintro ⟨c, memory⟩ e m' h
  rw [writeWord_eq] at h
  cases hw : Device.writeWord address w memory with
  | ok _ memory' =>
    rw [hw] at h
    cases h
  | error e memory' =>
    rw [hw] at h
    cases h
    rw [hμ memory address w e memory' hw]

/-- The word is written before `sp` moves. -/
lemma push (w : Word) : AllOrNothing (push w : Exec μ Unit) :=
  look_bind fun sp => (store hμ sp w).bind fun _ => (Total.set .sp _).bind fun _ => .modifyCpu _

lemma perform {op : Opcode} (hop : op.isSimple = true) (a : op.format.Fetched) :
    AllOrNothing (perform op a : Exec μ Unit) := by
  cases op with
  | pop | calLit | calReg | ret | rti | int => cases hop
  | movRegMem | movLitMem | movLitRegPtr => exact store hμ _ _
  | movMemReg | movRegPtrReg | movLitOffReg => exact (readWord _).bind fun w => .set _ w
  | pshLit | pshReg => exact push hμ _
  | incReg | decReg | lsfRegLit | lsfRegReg | rsfRegLit | rsfRegReg => exact change _ _
  | jneLit | jneReg | jeqLit | jeqReg | jltLit | jltReg | jgtLit | jgtReg | jleLit | jleReg | jgeLit
  | jgeReg =>
    unfold Exec.perform
    exact jumpIf _ _ _
  | slp => exact of_sure (.emit _)
  | hlt => exact of_sure ((Total.modifyCpu _).bind fun _ => .emit _)
  | _ => exact of_sure (.set _ _)

end AllOrNothing

/-- A simple instruction whose step fails has only been fetched, as far as it can be. -/
lemma eq_advance_of_step_error [Device μ] (hμ : Device.Atomic μ) {m m' : Machine μ}
    (hrun : m.cpu.halted = false) {code : Byte}
    (hcode : Device.readByte m.memory (m.cpu.get .ip) = .ok code) {op : Opcode}
    (hop : Opcode.ofByte? code = some op) (hsimple : op.isSimple = true) {e : MemoryError}
    (h : step m = .error e m') : m' = m.advance m.fetched := by
  have hfetched := advance_fetched hrun hcode hop
  rw [step_of_running hrun, bind_of_ok (fetchByte_of_ok hcode), execute, hop] at h
  cases hfetch : fetch op.format (m.advance 1) with
  | error _ u =>
    rw [hfetch] at hfetched
    simp only [bind_of_error hfetch] at h
    cases h
    exact hfetched.symm
  | ok a u =>
    rw [hfetch] at hfetched
    simp only [bind_of_ok hfetch] at h
    have hperform : AllOrNothing (do perform op a; return outcome op a : Exec μ Step) :=
      (AllOrNothing.perform hμ hsimple a).bind fun _ => .pure _
    exact (hperform u e m' h).trans hfetched.symm

end Exec

/-- A step that fails before it knows its instruction changes nothing. Otherwise a byte that names an
instruction has been read; if that is a simple one, the whole machine is as before, its memory, its flags and
what its listeners have heard, but for `ip`. That is past the bytes that were fetched, of which there are no
more than the instruction has. -/
theorem step_error_eq_advance {m m' : Machine Ram} {e : MemoryError} (h : Exec.step m = .error e m') :
    m.cpu.halted = false ∧
    ((Device.readByte m.memory (m.cpu.get .ip) = .error e ∧ m' = m) ∨
      ∃ code op, Device.readByte m.memory (m.cpu.get .ip) = .ok code ∧ Opcode.ofByte? code = some op ∧
        (op.isSimple = true → m' = m.advance m.fetched ∧ 1 ≤ m.fetched ∧ m.fetched ≤ op.size)) := by
  have hrun : m.cpu.halted = false := by
    cases hm : m.cpu.halted with
    | true => cases (Exec.step_of_halted hm).symm.trans h
    | false => rfl
  refine ⟨hrun, ?_⟩
  cases hcode : Device.readByte m.memory (m.cpu.get .ip) with
  | error e' =>
    rw [Exec.step_of_running hrun, Exec.bind_of_error (Exec.fetchByte_of_error hcode)] at h
    cases h
    exact .inl ⟨rfl, rfl⟩
  | ok code =>
    cases hop : Opcode.ofByte? code with
    | none =>
      rw [Exec.step_of_running hrun, Exec.bind_of_ok (Exec.fetchByte_of_ok hcode), Exec.execute, hop] at h
      cases h
    | some op =>
      refine .inr ⟨code, op, rfl, hop, fun hsimple => ⟨?_, ?_, m.fetched_le hrun hcode hop⟩⟩
      · exact Exec.eq_advance_of_step_error Ram.atomic hrun hcode hop hsimple h
      · rw [m.fetched_eq hrun hcode hop]
        exact Nat.le_add_right 1 _

/-- A machine at an instruction that loads `r1` from beyond the end of the memory. -/
def Machine.reachingOut : Machine Ram := ⟨Cpu.initial 0, ⟨#[0x13, 0x00, 0x10, 0x02]⟩⟩

/-- All four bytes are fetched, and then there is nothing to load. -/
theorem step_error_eq_advance_load :
    Exec.step Machine.reachingOut = .error (.outOfBounds 16 4) (Machine.reachingOut.advance 4) ∧
      Opcode.movMemReg.isSimple = true ∧
      Machine.reachingOut.advance 4 = Machine.reachingOut.advance Machine.reachingOut.fetched ∧
      1 ≤ Machine.reachingOut.fetched ∧ Machine.reachingOut.fetched ≤ Opcode.movMemReg.size := by
  have h : Exec.step Machine.reachingOut =
      .error (.outOfBounds 16 4) (Machine.reachingOut.advance 4) := by rfl
  obtain ⟨-, ⟨hread, -⟩ | ⟨code, op, hcode, hop, hsimple⟩⟩ := step_error_eq_advance h
  · cases hread
  · cases hcode
    cases hop
    exact ⟨h, rfl, hsimple rfl⟩

end Machine16
