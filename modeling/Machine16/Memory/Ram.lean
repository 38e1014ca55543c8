import Machine16.Memory.Device

/-! Memory of a fixed size, all zero at first. Offsets are 64-bit numbers. -/
namespace Machine16

structure Ram where
  bytes : Array Byte
  deriving DecidableEq

namespace Ram

def zeros (size : Nat) : Ram := ⟨Array.replicate size 0⟩

def size (m : Ram) : Nat := m.bytes.size

@[simp] theorem size_zeros (n : Nat) : (zeros n).size = n := by simp [zeros, size]

/-- Why `width` bytes at `offset` cannot be accessed. -/
def fault (m : Ram) (offset : UInt64) (width : Nat) : MemoryError :=
  if offset.toNat + width < UInt64.size then .outOfBounds offset.toNat m.size
  else .offsetOverflow offset.toNat

def readByte (m : Ram) (offset : UInt64) : Except MemoryError Byte :=
  if h : offset.toNat + 1 ≤ m.bytes.size then .ok m.bytes[offset.toNat]
  else .error (m.fault offset 1)

def readWord (m : Ram) (offset : UInt64) : Except MemoryError Word :=
  if h : offset.toNat + 2 ≤ m.bytes.size then
    .ok (Word.ofBytes m.bytes[offset.toNat] m.bytes[offset.toNat + 1])
  else .error (m.fault offset 2)

def writeByte (offset : UInt64) (b : Byte) : Update Ram Unit
  | ⟨bytes⟩ =>
    if h : offset.toNat + 1 ≤ bytes.size then .ok () ⟨bytes.set offset.toNat b⟩
    else .error (fault ⟨bytes⟩ offset 1) ⟨bytes⟩

def writeWord (offset : UInt64) (w : Word) : Update Ram Unit
  | ⟨bytes⟩ =>
    if h : offset.toNat + 2 ≤ bytes.size then
      .ok () ⟨(bytes.set offset.toNat (Word.high w)).set (offset.toNat + 1) (Word.low w)
        (by rw [Array.size_set]; omega)⟩
    else .error (fault ⟨bytes⟩ offset 2) ⟨bytes⟩

instance : Device Ram where
  readByte m a := m.readByte a.toUInt64
  readWord m a := m.readWord a.toUInt64
  writeByte a := writeByte a.toUInt64
  writeWord a := writeWord a.toUInt64

end Ram
end Machine16
