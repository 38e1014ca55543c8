import Machine16.Text.Hex
import Machine16.Word

/-! What the processor and the bus ask of anything that can be addressed. They do not know whether a
read changes it. The devices here are such that it does not, which is what `Device` says. An access
that fails keeps what it did before it failed. -/
namespace Machine16

inductive MemoryError
  /-- An access that does not lie inside a memory of `size` bytes. -/
  | outOfBounds (offset size : Nat)
  /-- An access whose end is no 64-bit number. -/
  | offsetOverflow (offset : Nat)
  | invalidRange (first last : Nat)
  | device (address : Word) (message : String)
  deriving DecidableEq, Repr

def MemoryError.message : MemoryError → String
  | outOfBounds offset size =>
    "offset 0x" ++ Hex.format 1 offset ++ " out of bounds for memory of size 0x" ++ Hex.format 1 size
  | offsetOverflow offset => "offset 0x" ++ Hex.format 1 offset ++ " out of range"
  | invalidRange first last =>
    "invalid mapping range 0x" ++ Hex.format 1 first ++ "..=0x" ++ Hex.format 1 last
  | device address text => "device error at 0x" ++ Hex.format 4 address.toNat ++ ": " ++ text

/-- A change of a `σ` that can fail halfway. -/
abbrev Update (σ : Type) : Type → Type := EStateM MemoryError σ

namespace Update

variable {σ α β : Type} {x : Update σ α} {y : α → Update σ β} {s s' : σ}

/-- Gives an answer and changes nothing. -/
def ofExcept (r : Except MemoryError α) : Update σ α := fun s =>
  match r with
  | .ok a => .ok a s
  | .error e => .error e s

@[simp] theorem ofExcept_ok (a : α) (s : σ) : ofExcept (.ok a) s = .ok a s := rfl

@[simp] theorem ofExcept_error (e : MemoryError) (s : σ) :
    (ofExcept (.error e) s : EStateM.Result MemoryError σ α) = .error e s := rfl

/-- The result of an update, as one of something that holds what has been updated. -/
def within {τ : Type} (hold : σ → τ) : EStateM.Result MemoryError σ α → EStateM.Result MemoryError τ α
  | .ok a s => .ok a (hold s)
  | .error e s => .error e (hold s)

@[simp] theorem within_ok {τ : Type} (hold : σ → τ) (a : α) (s : σ) :
    within hold (.ok a s) = .ok a (hold s) := rfl

@[simp] theorem within_error {τ : Type} (hold : σ → τ) (e : MemoryError) (s : σ) :
    within hold (.error e s : EStateM.Result MemoryError σ α) = .error e (hold s) := rfl

theorem within_ofExcept {τ : Type} (hold : σ → τ) (r : Except MemoryError α) (s : σ) :
    within hold (ofExcept r s) = ofExcept r (hold s) := by cases r <;> rfl

theorem bind_of_ok {a : α} (h : x s = .ok a s') : (x >>= y) s = y a s' := by
  change EStateM.bind x y s = _
  simp only [EStateM.bind, h]

theorem bind_of_error {e : MemoryError} (h : x s = .error e s') : (x >>= y) s = .error e s' := by
  change EStateM.bind x y s = _
  simp only [EStateM.bind, h]

theorem bind_eq_ofExcept {r : Except MemoryError α} {z : α → Except MemoryError β}
    (hx : x s = ofExcept r s) (hy : ∀ a, y a s = ofExcept (z a) s) :
    (x >>= y) s = ofExcept (r >>= z) s := by
  cases r with
  | ok a => exact (bind_of_ok hx).trans (hy a)
  | error e => exact bind_of_error hx

theorem bind_eq_ok {b : β} :
    (x >>= y) s = .ok b s' ↔ ∃ a u, x s = .ok a u ∧ y a u = .ok b s' := by
  constructor
  · intro h
    cases hx : x s with
    | ok a u =>
      rw [bind_of_ok hx] at h
      exact ⟨a, u, rfl, h⟩
    | error e u =>
      rw [bind_of_error hx] at h
      cases h
  · rintro ⟨a, u, hx, hy⟩
    rw [bind_of_ok hx, hy]

end Update

/-- Anything that can be addressed. Addresses are relative to its beginning, words have their high
byte first. -/
class Addressable (δ : Type) where
  getByte : Word → Update δ Byte
  getWord : Word → Update δ Word
  writeByte : Word → Byte → Update δ Unit
  writeWord : Word → Word → Update δ Unit

/-- Something that answers reads and is not changed by them. What is proved about machines and buses is
proved for memories and devices of this kind. -/
class Device (δ : Type) extends Addressable δ where
  readByte : δ → Word → Except MemoryError Byte
  readWord : δ → Word → Except MemoryError Word
  getByte := fun address d => Update.ofExcept (readByte d address) d
  getWord := fun address d => Update.ofExcept (readWord d address) d
  getByte_eq (address : Word) (d : δ) :
    getByte address d = Update.ofExcept (readByte d address) d := by intros; rfl
  getWord_eq (address : Word) (d : δ) :
    getWord address d = Update.ofExcept (readWord d address) d := by intros; rfl

namespace Device

export Addressable (writeByte writeWord)

end Device

end Machine16
