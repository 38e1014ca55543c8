/-! Bytes and sixteen-bit words. Arithmetic on both wraps. A word lies in memory with its high
byte first. -/
namespace Machine16

abbrev Byte := UInt8
abbrev Word := UInt16

namespace Word

def ofBytes (high low : Byte) : Word := UInt16.ofNat (256 * high.toNat + low.toNat)

def high (w : Word) : Byte := UInt8.ofNat (w.toNat / 256)
def low (w : Word) : Byte := w.toUInt8

def bytes (w : Word) : List Byte := [high w, low w]

@[simp] theorem toNat_ofBytes (h l : Byte) : (ofBytes h l).toNat = 256 * h.toNat + l.toNat := by
  have := h.toNat_lt
  have := l.toNat_lt
  simp only [ofBytes, UInt16.toNat_ofNat']
  omega

@[simp] theorem toNat_high (w : Word) : (high w).toNat = w.toNat / 256 := by
  have := w.toNat_lt
  simp only [high, UInt8.toNat_ofNat']
  omega

@[simp] theorem toNat_low (w : Word) : (low w).toNat = w.toNat % 256 := by
  simp [low, UInt16.toNat_toUInt8]

@[simp] theorem high_ofBytes (h l : Byte) : high (ofBytes h l) = h := by
  apply UInt8.toNat_inj.mp
  have := l.toNat_lt
  simp only [toNat_high, toNat_ofBytes]
  omega

@[simp] theorem low_ofBytes (h l : Byte) : low (ofBytes h l) = l := by
  apply UInt8.toNat_inj.mp
  have := l.toNat_lt
  simp only [toNat_low, toNat_ofBytes]
  omega

@[simp] theorem ofBytes_high_low (w : Word) : ofBytes (high w) (low w) = w := by
  apply UInt16.toNat_inj.mp
  simp only [toNat_ofBytes, toNat_high, toNat_low]
  omega

@[simp] theorem length_bytes (w : Word) : (bytes w).length = 2 := rfl

theorem toNat_lt_of_ne {w : Word} (h : w ≠ 0xFFFF) : w.toNat < 0xFFFF := by
  have hlt := w.toNat_lt
  have hne : w.toNat ≠ 0xFFFF := fun hn => h (UInt16.toNat_inj.mp hn)
  omega

theorem toNat_add_one {w : Word} (h : w ≠ 0xFFFF) : (w + 1).toNat = w.toNat + 1 := by
  have := toNat_lt_of_ne h
  rw [UInt16.toNat_add, UInt16.toNat_one]
  omega

end Word
end Machine16
