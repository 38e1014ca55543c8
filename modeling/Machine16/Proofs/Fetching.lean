import Machine16.Memory.Bus
import Machine16.Memory.Ram
import Machine16.Proofs.Refinement

/-! Fetching and decoding agree. The processor takes its operands from memory one by one, each as
its slot asks for; a listing takes them from a list of bytes. Where an instruction does not go
beyond the end of the address space, both find the same operands. -/
namespace Machine16

/-- A memory in which a word is made of two bytes, except for the one at the last address. -/
class Bytewise (μ : Type) [Device μ] : Prop where
  readWord_toOption (m : μ) {address : Word} (h : address ≠ 0xFFFF) :
    (Device.readWord m address).toOption = (Device.readByte m address).toOption.bind fun high =>
      (Device.readByte m (address + 1)).toOption.map (Word.ofBytes high)

instance : Bytewise Ram where
  readWord_toOption m address h := by
    have hnext := Word.toNat_add_one h
    simp only [Device.readWord, Device.readByte, Ram.readWord, Ram.readByte,
      UInt16.toNat_toUInt64, hnext]
    by_cases h₂ : address.toNat + 2 ≤ m.bytes.size
    · have h₁ : address.toNat + 1 ≤ m.bytes.size := by omega
      have h₁' : address.toNat + 1 + 1 ≤ m.bytes.size := h₂
      rw [dif_pos h₂, dif_pos h₁, dif_pos h₁']
      rfl
    · have h₁' : ¬ address.toNat + 1 + 1 ≤ m.bytes.size := h₂
      rw [dif_neg h₂, dif_neg h₁']
      split_ifs <;> rfl

instance {δ : Type} [Device δ] : Bytewise (Bus δ) where
  readWord_toOption b address h := by
    have hnext : Bus.nextAddress? address = some (address + 1) := if_neg h
    simp only [Device.readWord, Device.readByte, Bus.readWord, hnext]
    cases b.readByte address with
    | error e => rfl
    | ok high => cases b.readByte (address + 1) <;> rfl

/-- The number of bytes that the operands take. -/
def Format.width (f : Format) : Nat := f.foldr (fun s n => s.width + n) 0

@[simp] lemma Format.width_cons (s : Slot) (f : Format) : width (s :: f) = s.width + width f := rfl

lemma Format.size_eq (f : Format) : f.size = f.width + 1 := by
  induction f with
  | nil => rfl
  | cons s f ih =>
    rw [size_cons, ih, width_cons]
    omega

namespace View

variable {μ : Type} [Device μ]

def readByte? (v : View μ) (address : Word) : Option Byte :=
  (Device.readByte v.memory address).toOption

/-- The bytes from an address upwards. -/
def bytesFrom? (v : View μ) (address : Word) : Nat → Option (List Byte)
  | 0 => some []
  | n + 1 => do
    let b ← v.readByte? address
    let bs ← v.bytesFrom? (address + 1) n
    return b :: bs

lemma bytesFrom?_add (v : View μ) (address : Word) (m n : Nat) :
    v.bytesFrom? address (m + n) = (v.bytesFrom? address m).bind fun bs =>
      (v.bytesFrom? (address + UInt16.ofNat m) n).map (bs ++ ·) := by
  induction m generalizing address with
  | zero => simp [bytesFrom?]
  | succ m ih =>
    have ha : address + 1 + UInt16.ofNat m = address + UInt16.ofNat (m + 1) := by
      simp
      grind
    rw [Nat.succ_add]
    simp only [bytesFrom?, ih, ha, Option.bind_eq_bind, Option.bind_assoc, Option.pure_def,
      Option.bind_some]
    congr
    funext b
    congr
    funext bs
    cases v.bytesFrom? (address + UInt16.ofNat (m + 1)) n <;> rfl

lemma bytesFrom?_append {v : View μ} {address : Word} (bs cs : List Byte)
    (h : v.bytesFrom? address (bs.length + cs.length) = some (bs ++ cs)) :
    v.bytesFrom? address bs.length = some bs ∧
      v.bytesFrom? (address + UInt16.ofNat bs.length) cs.length = some cs := by
  induction bs generalizing address with
  | nil => exact ⟨rfl, by simpa using h⟩
  | cons b bs ih =>
    rw [List.length_cons, Nat.succ_add] at h
    obtain ⟨_, hb, h⟩ := Option.bind_eq_some_iff.mp h
    obtain ⟨_, hrest, heq⟩ := Option.bind_eq_some_iff.mp h
    cases heq
    obtain ⟨hbs, hcs⟩ := ih hrest
    have ha : address + 1 + UInt16.ofNat bs.length = address + UInt16.ofNat (bs.length + 1) := by
      simp
      grind
    exact ⟨by simp [bytesFrom?, hb, hbs], ha ▸ hcs⟩

lemma bytesFrom?_congr {v v' : View μ} (h : v.memory = v'.memory) (address : Word) (n : Nat) :
    v.bytesFrom? address n = v'.bytesFrom? address n := by
  induction n generalizing address with
  | zero => rfl
  | succ n ih => simp only [bytesFrom?, readByte?, h, ih]

@[simp] lemma bytesFrom?_set (v : View μ) (r : Register) (w address : Word) (n : Nat) :
    (v.set r w).bytesFrom? address n = v.bytesFrom? address n :=
  bytesFrom?_congr (v.memory_set r w) address n

lemma bytesFrom?_one_eq_some {v : View μ} {address : Word} {bs : List Byte}
    (h : v.bytesFrom? address 1 = some bs) : ∃ b, bs = [b] ∧ v.readByte? address = some b := by
  obtain ⟨b, hb, h⟩ := Option.bind_eq_some_iff.mp h
  cases h
  exact ⟨b, rfl, hb⟩

lemma bytesFrom?_one_eq_none {v : View μ} {address : Word}
    (h : v.bytesFrom? address 1 = none) : v.readByte? address = none := by
  cases hb : v.readByte? address with
  | none => rfl
  | some b => simp [bytesFrom?, hb] at h

section

variable [Bytewise μ]

lemma readWord?_eq {v : View μ} {address : Word} (h : address ≠ 0xFFFF) :
    v.readWord? address = (v.readByte? address).bind fun high =>
      (v.readByte? (address + 1)).map (Word.ofBytes high) :=
  Bytewise.readWord_toOption v.memory h

/-- Two bytes are a word if they do not lie around the end of the address space. -/
lemma bytesFrom?_two_eq_some {v : View μ} {address : Word} (ha : address ≠ 0xFFFF) {bs : List Byte}
    (h : v.bytesFrom? address 2 = some bs) :
    ∃ high low, bs = [high, low] ∧ v.readWord? address = some (Word.ofBytes high low) := by
  obtain ⟨high, hhigh, h⟩ := Option.bind_eq_some_iff.mp h
  obtain ⟨_, hone, h⟩ := Option.bind_eq_some_iff.mp h
  obtain ⟨low, rfl, hlow⟩ := bytesFrom?_one_eq_some hone
  cases h
  refine ⟨high, low, rfl, ?_⟩
  rw [readWord?_eq ha, hhigh, Option.bind_some, hlow]
  rfl

lemma bytesFrom?_two_eq_none {v : View μ} {address : Word} (ha : address ≠ 0xFFFF)
    (h : v.bytesFrom? address 2 = none) : v.readWord? address = none := by
  rw [readWord?_eq ha]
  cases hhigh : v.readByte? address with
  | none => rfl
  | some high =>
    cases hlow : v.readByte? (address + 1) with
    | none => rfl
    | some low => simp [bytesFrom?, hhigh, hlow] at h

end

end View

/-- A fetched operand with the value that was fetched. -/
def Slot.reading : (s : Slot) → s.Fetched → Operand Word × Word
  | .literal, w => (.literal w, w)
  | .byte, b => (.byte b.toUInt16, b.toUInt16)
  | .address, w => (.address w, w)
  | .register, r => (.register r.1, r.2)
  | .pointer, r => (.pointer r.1, r.2)
  | .indirect, r => (.indirect r.1, r.2)

def Format.readings : (f : Format) → f.Fetched → List (Operand Word × Word)
  | [], _ => []
  | s :: f, (a, as) => s.reading a :: Format.readings f as

/-- What `ip` is before an operand is fetched does not matter. -/
lemma Operand.readings_update (reg : Register → Word) (w ip : Word) (os : List (Operand Word)) :
    readings (Function.update reg .ip w) ip os = readings reg ip os := by
  induction os generalizing ip with
  | nil => rfl
  | cons o os ih => simp only [readings, Function.update_idem, ih]

namespace Exec

/-- What lies behind an operand ends where it did, also if `ip` wraps. -/
lemma add_le_of_add_le {ip : Word} {width rest : Nat} (h : ip.toNat + (width + rest) ≤ 0x10000) :
    (ip + UInt16.ofNat width).toNat + rest ≤ 0x10000 := by
  rw [UInt16.toNat_add, UInt16.toNat_ofNat']
  omega

lemma ne_last_of_add_two_le {ip : Word} (h : ip.toNat + 2 ≤ 0x10000) : ip ≠ 0xFFFF := by
  rintro rfl
  exact absurd h (by decide)

variable {μ α β : Type}

lemma observe_eq_some {r : EStateM.Result MemoryError (Machine μ) α} {a : α} {v : View μ} :
    observe r = some (a, v) ↔ ∃ m, r = .ok a m ∧ m.view = v := by
  cases r with
  | ok b m =>
    constructor
    · intro h
      cases h
      exact ⟨m, rfl, rfl⟩
    · rintro ⟨_, h, rfl⟩
      cases h
      rfl
  | error e m =>
    constructor
    · intro h
      cases h
    · rintro ⟨_, h, _⟩
      cases h

lemma observe_bind_of_none {x : Exec μ α} {y : α → Exec μ β} {m : Machine μ}
    (h : observe (x m) = none) : observe ((x >>= y) m) = none := by
  cases hx : x m with
  | ok a m' =>
    rw [hx] at h
    cases h
  | error e m' =>
    rw [bind_of_error hx]
    rfl

variable [Device μ]

namespace Refines

lemma readByte (address : Word) : Refines (readByte address : Exec μ Byte) fun v =>
    (v.readByte? address).map fun b => (b, v) := by
  intro m
  cases h : Device.readByte m.memory address with
  | ok b =>
    simp only [Exec.readByte_eq, View.readByte?, Machine.view, h]
    rfl
  | error e =>
    simp only [Exec.readByte_eq, View.readByte?, Machine.view, h]
    rfl

lemma fetchByte : Refines (fetchByte : Exec μ Byte) fun v =>
    (v.readByte? (v.reg .ip)).map fun b => (b, v.set .ip (v.reg .ip + 1)) := by
  refine ((get .ip).bind fun ip => (readByte ip).bind fun b => (assign .ip (ip + 1)).bind fun _ =>
    pure b).congr fun v => ?_
  cases h : v.readByte? (v.reg .ip) <;> simp [h]

lemma fetchWord : Refines (fetchWord : Exec μ Word) fun v =>
    (v.readWord? (v.reg .ip)).map fun w => (w, v.set .ip (v.reg .ip + 2)) := by
  refine ((get .ip).bind fun ip => (readWord ip).bind fun w => (assign .ip (ip + 2)).bind fun _ =>
    pure w).congr fun v => ?_
  cases h : v.readWord? (v.reg .ip) <;> simp [h]

lemma fetchSelected : Refines (fetchSelected : Exec μ (Register × Word)) fun v =>
    (v.readByte? (v.reg .ip)).map fun b =>
      ((.ofSelector b, (v.set .ip (v.reg .ip + 1)).reg (.ofSelector b)),
        v.set .ip (v.reg .ip + 1)) := by
  refine ((fetchByte.bind fun b => pure (Register.ofSelector b)).bind fun r => (get r).bind fun w =>
    pure (r, w)).congr fun v => ?_
  cases v.readByte? (v.reg .ip) <;> rfl

end Refines

variable [Bytewise μ]

/-- An operand whose bytes can be read is fetched as it is decoded. -/
lemma fetchSlot_of_some (s : Slot) (m : Machine μ) {ip : Word} (hip : m.view.reg .ip = ip)
    (hend : ip.toNat + s.width ≤ 0x10000) {bs : List Byte}
    (h : m.view.bytesFrom? ip s.width = some bs) :
    ∃ a o, observe (fetchSlot s m) = some (a, m.view.set .ip (ip + UInt16.ofNat s.width)) ∧
      (∀ rest, Operand.decode? s (bs ++ rest) = some (o, rest)) ∧ o.slot = s ∧
      s.reading a = (o, o.word (m.view.set .ip (ip + UInt16.ofNat s.width)).reg) := by
  subst hip
  cases s with
  | literal | address =>
    obtain ⟨high, low, rfl, hw⟩ := View.bytesFrom?_two_eq_some (ne_last_of_add_two_le hend) h
    refine ⟨Word.ofBytes high low, _, ?_, fun _ => rfl, rfl, rfl⟩
    exact (Refines.fetchWord m).trans (congrArg (Option.map _) hw)
  | byte =>
    obtain ⟨b, rfl, hb⟩ := View.bytesFrom?_one_eq_some h
    refine ⟨b, _, ?_, fun _ => rfl, rfl, rfl⟩
    exact (Refines.fetchByte m).trans (congrArg (Option.map _) hb)
  | register | pointer | indirect =>
    obtain ⟨b, rfl, hb⟩ := View.bytesFrom?_one_eq_some h
    refine ⟨(.ofSelector b, _), _, ?_, fun _ => rfl, rfl, rfl⟩
    exact (Refines.fetchSelected m).trans (congrArg (Option.map _) hb)

lemma fetchSlot_of_none (s : Slot) (m : Machine μ) {ip : Word} (hip : m.view.reg .ip = ip)
    (hend : ip.toNat + s.width ≤ 0x10000) (h : m.view.bytesFrom? ip s.width = none) :
    observe (fetchSlot s m) = none := by
  subst hip
  cases s with
  | literal | address =>
    have hw := View.bytesFrom?_two_eq_none (ne_last_of_add_two_le hend) h
    exact (Refines.fetchWord m).trans (congrArg (Option.map _) hw)
  | byte =>
    have hb := View.bytesFrom?_one_eq_none h
    exact (Refines.fetchByte m).trans (congrArg (Option.map _) hb)
  | register | pointer | indirect =>
    have hb := View.bytesFrom?_one_eq_none h
    exact (Refines.fetchSelected m).trans (congrArg (Option.map _) hb)

/-- The operands are fetched as they are decoded from the bytes at `ip`. -/
lemma fetch_of_some (f : Format) (m : Machine μ) {ip : Word} (hip : m.view.reg .ip = ip)
    (hend : ip.toNat + f.width ≤ 0x10000) {bs : List Byte}
    (h : m.view.bytesFrom? ip f.width = some bs) :
    ∃ a os, observe (fetch f m) = some (a, m.view.set .ip (ip + UInt16.ofNat f.width)) ∧
      Operand.decodeAll? f bs = some (os, []) ∧
      f.readings a = Operand.readings m.view.reg ip os := by
  induction f generalizing m ip bs with
  | nil =>
    cases h
    refine ⟨(), [], ?_, rfl, rfl⟩
    subst hip
    refine congrArg (fun v => some ((), v)) (View.ext (fun r => ?_) rfl rfl rfl rfl rfl)
    by_cases hr : r = .ip
    · simp [hr, Format.width]
    · simp [hr]
  | cons s f ih =>
    rw [Format.width_cons] at hend h
    obtain ⟨bs₁, h₁, h⟩ := Option.bind_eq_some_iff.mp ((m.view.bytesFrom?_add ip _ _).symm.trans h)
    obtain ⟨bs₂, h₂, rfl⟩ := Option.map_eq_some_iff.mp h
    obtain ⟨a, o, ha, hdecode, hslot, hread⟩ := fetchSlot_of_some s m hip (by omega) h₁
    obtain ⟨m', hm, hview⟩ := observe_eq_some.mp ha
    have hip' : m'.view.reg .ip = ip + UInt16.ofNat s.width := by simp [hview]
    rw [← View.bytesFrom?_set _ .ip (ip + UInt16.ofNat s.width), ← hview] at h₂
    have hend' := add_le_of_add_le hend
    obtain ⟨as, os, has, hdecodeAll, hreads⟩ := ih m' hip' hend' h₂
    refine ⟨(a, as), o :: os, ?_, ?_, ?_⟩
    · obtain ⟨m'', hm', hview'⟩ := observe_eq_some.mp has
      have hfetch : fetch (s :: f) m = .ok (a, as) m'' :=
        (bind_of_ok hm).trans (bind_of_ok hm')
      rw [hfetch]
      refine congrArg (fun v => some ((a, as), v)) ?_
      rw [hview', hview, View.set_set, Format.width_cons, UInt16.ofNat_add, UInt16.add_assoc]
    · simp [Operand.decodeAll?, hdecode, hdecodeAll]
    · rw [hview] at hreads
      simp only [Format.readings, Operand.readings, hread, hslot, hreads]
      exact congrArg _ (Operand.readings_update _ _ _ _)

lemma fetch_of_none (f : Format) (m : Machine μ) {ip : Word} (hip : m.view.reg .ip = ip)
    (hend : ip.toNat + f.width ≤ 0x10000) (h : m.view.bytesFrom? ip f.width = none) :
    observe (fetch f m) = none := by
  induction f generalizing m ip with
  | nil => cases h
  | cons s f ih =>
    rw [Format.width_cons] at hend h
    rw [View.bytesFrom?_add] at h
    cases h₁ : m.view.bytesFrom? ip s.width with
    | none => exact observe_bind_of_none (fetchSlot_of_none s m hip (by omega) h₁)
    | some bs₁ =>
      rw [h₁, Option.bind_some, Option.map_eq_none_iff] at h
      obtain ⟨a, o, ha, -, -, -⟩ := fetchSlot_of_some s m hip (by omega) h₁
      obtain ⟨m', hm, hview⟩ := observe_eq_some.mp ha
      have hip' : m'.view.reg .ip = ip + UInt16.ofNat s.width := by simp [hview]
      rw [← View.bytesFrom?_set _ .ip (ip + UInt16.ofNat s.width), ← hview] at h
      have hend' := add_le_of_add_le hend
      have hfetch : fetch (s :: f) m = (do let as ← fetch f; return (a, as) : Exec μ _) m' :=
        bind_of_ok hm
      rw [hfetch]
      exact observe_bind_of_none (ih m' hip' hend' h)

end Exec
end Machine16
