import Machine16.Word

/-! The register file: fourteen words, known to programs by name and to instructions by a
selector byte. -/
namespace Machine16

inductive Register
  | r1 | r2 | r3 | r4 | r5 | r6 | r7 | r8
  | sp | fp | ip
  /-- Receives the results of arithmetic. -/
  | acc
  | mb
  /-- Bit `n` enables interrupt `n`. -/
  | im
  deriving DecidableEq, Repr

namespace Register

/-- All registers, in the order of the register file. -/
def all : List Register := [r1, r2, r3, r4, r5, r6, r7, r8, sp, fp, ip, acc, mb, im]

/-- The registers that a call saves, in the order in which they are pushed. -/
def general : List Register := [r1, r2, r3, r4, r5, r6, r7, r8]

def index : Register → Fin 14
  | r1 => 0 | r2 => 1 | r3 => 2 | r4 => 3 | r5 => 4 | r6 => 5 | r7 => 6 | r8 => 7
  | sp => 8 | fp => 9 | ip => 10 | acc => 11 | mb => 12 | im => 13

def ofIndex (i : Fin 14) : Register := all.get i

@[simp] theorem ofIndex_index (r : Register) : ofIndex r.index = r := by cases r <;> rfl

@[simp] theorem index_ofIndex (i : Fin 14) : (ofIndex i).index = i := by revert i; decide

/-- The place of the register in the file, in bytes. -/
def offset (r : Register) : Nat := 2 * r.index

def selector (r : Register) : Byte := UInt8.ofNat r.index

/-- Every byte selects a register: selectors past the last register start over. -/
def ofSelector (b : Byte) : Register := ofIndex (Fin.ofNat 14 b.toNat)

@[simp] theorem ofSelector_selector (r : Register) : ofSelector r.selector = r := by
  cases r <;> rfl

theorem index_ofSelector (b : Byte) : (ofSelector b).index.val = b.toNat % 14 := by
  simp [ofSelector]

def name : Register → String
  | r1 => "r1" | r2 => "r2" | r3 => "r3" | r4 => "r4"
  | r5 => "r5" | r6 => "r6" | r7 => "r7" | r8 => "r8"
  | sp => "sp" | fp => "fp" | ip => "ip" | acc => "acc" | mb => "mb" | im => "im"

/-- Names are read in either case. -/
def ofName? (name : String) : Option Register :=
  all.find? fun r => r.name.toList == name.toList.map Char.toLower

end Register

/-- The error of asking for a register that does not exist. -/
structure UnknownRegister where
  name : String
  deriving DecidableEq, Repr

namespace UnknownRegister

def message (e : UnknownRegister) : String := "no such register " ++ e.name

end UnknownRegister

def Register.parse (name : String) : Except UnknownRegister Register :=
  match ofName? name with
  | some r => .ok r
  | none => .error ⟨name⟩

end Machine16
