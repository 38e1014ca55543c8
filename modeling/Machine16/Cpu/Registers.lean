import Machine16.Isa.Register

/-! The contents of the registers. -/
namespace Machine16

structure Registers where
  words : Vector Word 14
  deriving DecidableEq, Repr

namespace Registers

def zeros : Registers := ⟨Vector.replicate 14 0⟩

def get (rs : Registers) (r : Register) : Word := rs.words[r.index]

def set (rs : Registers) (r : Register) (w : Word) : Registers := ⟨rs.words.set r.index w⟩

theorem index_val_inj {r s : Register} : r.index.val = s.index.val ↔ r = s := by
  constructor
  · intro h
    rw [← Register.ofIndex_index r, ← Register.ofIndex_index s, Fin.ext h]
  · rintro rfl
    rfl

@[simp] theorem get_zeros (r : Register) : zeros.get r = 0 := by simp [zeros, get]

@[simp] theorem get_set_self (rs : Registers) (r : Register) (w : Word) :
    (rs.set r w).get r = w := by simp [get, set]

theorem get_set (rs : Registers) (r s : Register) (w : Word) :
    (rs.set r w).get s = if r = s then w else rs.get s := by
  simp only [get, set, Fin.getElem_fin, Vector.getElem_set, index_val_inj]

theorem get_set_of_ne (rs : Registers) {r s : Register} (h : r ≠ s) (w : Word) :
    (rs.set r w).get s = rs.get s := by rw [get_set, if_neg h]

end Registers
end Machine16
