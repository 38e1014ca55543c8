import Mathlib.Data.List.Basic
import Mathlib.Logic.Function.Basic
import Machine16.Memory.Bus

/-! A memory in layers. Layers are numbered in the order in which they are made, and an address belongs
to the newest layer over it that has not been removed. Everything is done byte by byte. -/
namespace Machine16

/-- A device over the addresses from `first` to `last`. -/
structure Layer where
  device : Nat
  first : Nat
  last : Nat
  writable : Bool
  deriving DecidableEq, Repr

def Layer.covers (l : Layer) (address : Nat) : Bool := l.first ≤ address && address ≤ l.last

/-- Layers by their numbers, and the bytes of the devices. -/
structure Layered where
  layer : Nat → Option Layer
  /-- The number of layers that there have been. -/
  count : Nat
  content : Nat → Nat → Byte

namespace Layered

/-- The number of the newest layer over an address. -/
def number? (m : Layered) (address : Nat) : Option Nat :=
  (List.range m.count).reverse.find? fun n => (m.layer n).any (·.covers address)

lemma find?_reverse_range {p : Nat → Bool} {count n : Nat} :
    (List.range count).reverse.find? p = some n ↔
      n < count ∧ p n = true ∧ ∀ k, n < k → k < count → p k = false := by
  induction count with
  | zero => simp
  | succ count ih =>
    rw [List.range_succ, List.reverse_append, List.reverse_singleton, List.singleton_append]
    cases hp : p count with
    | true =>
      rw [List.find?_cons_of_pos hp, Option.some_inj]
      constructor
      · rintro rfl
        exact ⟨Nat.lt_succ_self _, hp, fun k hlt hk => by omega⟩
      · rintro ⟨hn, -, hnewest⟩
        by_contra hne
        cases hp.symm.trans (hnewest count (by omega) (Nat.lt_succ_self _))
    | false =>
      rw [List.find?_cons_of_neg (by simp [hp]), ih]
      constructor
      · rintro ⟨hn, hpn, hnewest⟩
        refine ⟨Nat.lt_succ_of_lt hn, hpn, fun k hlt hk => ?_⟩
        obtain hk | rfl := Nat.lt_succ_iff_lt_or_eq.mp hk
        · exact hnewest k hlt hk
        · exact hp
      · rintro ⟨hn, hpn, hnewest⟩
        have hne : n ≠ count := by
          rintro rfl
          cases hp.symm.trans hpn
        exact ⟨by omega, hpn, fun k hlt hk => hnewest k hlt (Nat.lt_succ_of_lt hk)⟩

/-- The layer over an address is the newest one. -/
lemma number?_eq_some {m : Layered} {address n : Nat} : m.number? address = some n ↔
    n < m.count ∧ (m.layer n).any (·.covers address) = true ∧
      ∀ k, n < k → k < m.count → (m.layer k).any (·.covers address) = false :=
  find?_reverse_range

/-- The layer that an address belongs to. Nothing belongs to what lies behind the last address. -/
def owner? (m : Layered) (address : Nat) : Option Layer :=
  if address ≤ 0xFFFF then (m.number? address).bind m.layer else none

def readByte (m : Layered) (address : Nat) : Byte :=
  match m.owner? address with
  | some l => m.content l.device (address - l.first)
  | none => 0

def readWord (m : Layered) (address : Nat) : Word :=
  Word.ofBytes (m.readByte address) (m.readByte (address + 1))

def writeByte (m : Layered) (address : Nat) (b : Byte) : Layered :=
  match m.owner? address with
  | some l =>
    if l.writable then
      { m with content := fun d i =>
          if d = l.device ∧ i = address - l.first then b else m.content d i }
    else m
  | none => m

def writeWord (m : Layered) (address : Nat) (w : Word) : Layered :=
  (m.writeByte address (Word.high w)).writeByte (address + 1) (Word.low w)

def load (m : Layered) (address : Nat) : List Byte → Layered
  | [] => m
  | b :: bs => (m.writeByte address b).load (address + 1) bs

/-- The layers with a new one on top. -/
def map (m : Layered) (l : Layer) : Layered :=
  { m with layer := Function.update m.layer m.count (some l), count := m.count + 1 }

def unmap (m : Layered) (number : Nat) : Layered :=
  { m with layer := Function.update m.layer number none }

lemma layer_map (m : Layered) (l : Layer) (n : Nat) :
    (m.map l).layer n = if n = m.count then some l else m.layer n := Function.update_apply _ _ _ _

lemma layer_unmap (m : Layered) (number n : Nat) :
    (m.unmap number).layer n = if n = number then none else m.layer n := Function.update_apply _ _ _ _

end Layered

/-- What can be asked of a bus. -/
inductive Request
  | map (device first last : Nat) (writable : Bool)
  | unmap (number : Nat)
  | readByte (address : Word)
  | readWord (address : Word)
  | writeByte (address : Word) (b : Byte)
  | writeWord (address w : Word)
  | load (address : Word) (bytes : List Byte)
  deriving DecidableEq, Repr

/-- A mapping that can be made is one of a memory with a byte for each address. -/
def Request.Fits (size? : Nat → Option Nat) : Request → Prop
  | map device first last _ =>
    first ≤ last → last ≤ 0xFFFF → ∃ size, size? device = some size ∧ last - first < size
  | _ => True

inductive Answer
  | mapped (number : Nat)
  /-- The device of a mapping, if there was the mapping. -/
  | unmapped (device : Option Nat)
  | byte (b : Byte)
  | word (w : Word)
  | done
  | error (e : MemoryError)
  deriving DecidableEq, Repr

namespace Layered

def answer (m : Layered) : Request → Answer × Layered
  | .map device first last writable =>
    if first ≤ last ∧ last ≤ 0xFFFF then (.mapped m.count, m.map ⟨device, first, last, writable⟩)
    else (.error (.invalidRange first last), m)
  | .unmap number => (.unmapped ((m.layer number).map Layer.device), m.unmap number)
  | .readByte address => (.byte (m.readByte address.toNat), m)
  | .readWord address => (.word (m.readWord address.toNat), m)
  | .writeByte address b => (.done, m.writeByte address.toNat b)
  | .writeWord address w => (.done, m.writeWord address.toNat w)
  | .load address bytes => (.done, m.load address.toNat bytes)

def answers (m : Layered) : List Request → List Answer × Layered
  | [] => ([], m)
  | r :: rs =>
    let (a, m) := m.answer r
    let (as, m) := m.answers rs
    (a :: as, m)

/-- Bytes behind the last address are not loaded. -/
lemma load_of_lt {m : Layered} {address : Nat} (h : 0xFFFF < address) (bs : List Byte) :
    m.load address bs = m := by
  induction bs generalizing address with
  | nil => rfl
  | cons b bs ih =>
    have howner : m.owner? address = none := if_neg (Nat.not_le_of_lt h)
    rw [load, writeByte, howner]
    exact ih (Nat.lt_succ_of_lt h)

/-- The only error is that of a range that is none. -/
lemma answer_eq_error {m : Layered} {r : Request} {e : MemoryError} :
    (m.answer r).1 = .error e ↔ ∃ device first last writable, r = .map device first last writable ∧
      (last < first ∨ 0xFFFF < last) ∧ e = .invalidRange first last := by
  cases r with
  | map device first last writable =>
    rw [answer]
    split_ifs with hrange
    · have hvalid : ¬ (last < first ∨ 0xFFFF < last) := by omega
      simp [hvalid]
    · have hinvalid : last < first ∨ 0xFFFF < last := by omega
      simp [hinvalid, eq_comm]
  | _ => simp [answer]

end Layered

end Machine16
