import Mathlib.Tactic.SplitIfs
import Machine16.Word

/-! The alphabet, byte by byte. Of two texts, the one that comes first by its characters comes first by the
bytes that encode it, too. -/
namespace Machine16

/-- The bytes of a text. -/
def utf8Bytes (text : String) : List Byte := text.toByteArray.data.toList

lemma utf8Bytes_eq (text : String) : utf8Bytes text = text.toList.flatMap String.utf8EncodeChar := by
  rw [utf8Bytes, ← String.utf8Encode_toList, List.utf8Encode]
  simp

/-- One list of bytes comes before another one. -/
abbrev ByteLess : List Byte → List Byte → Prop := List.Lex (· < ·)

lemma byteLess_cons {a b : Byte} {as bs : List Byte} :
    ByteLess (a :: as) (b :: bs) ↔ a.toNat < b.toNat ∨ a.toNat = b.toNat ∧ ByteLess as bs := by
  rw [ByteLess, List.cons_lex_cons_iff, UInt8.lt_iff_toNat_lt, UInt8.toNat_inj]

/-- Characters are told apart by their bytes, before any of them ends. -/
lemma byteLess_of_char_lt {c d : Char} (h : c < d) (as bs : List Byte) :
    ByteLess (String.utf8EncodeChar c ++ as) (String.utf8EncodeChar d ++ bs) := by
  have hlt : c.val.toNat < d.val.toNat := h
  have hd : d.val.toNat < 0x110000 := by
    have := d.valid
    omega
  unfold String.utf8EncodeChar
  dsimp only
  split_ifs <;>
    simp (disch := omega) only [List.cons_append, List.nil_append, byteLess_cons, UInt8.toNat_ofNat',
      Nat.mod_eq_of_lt] <;>
    omega

lemma byteLess_append_left {as bs : List Byte} (h : ByteLess as bs) (cs : List Byte) :
    ByteLess (cs ++ as) (cs ++ bs) := by
  induction cs with
  | nil => exact h
  | cons c cs ih => exact .cons ih

lemma byteLess_flatMap {xs ys : List Char} (h : List.Lex (· < ·) xs ys) :
    ByteLess (xs.flatMap String.utf8EncodeChar) (ys.flatMap String.utf8EncodeChar) := by
  induction h with
  | @nil y ys =>
    obtain ⟨b, bs, hbytes⟩ := List.exists_cons_of_ne_nil (String.utf8EncodeChar_ne_nil (c := y))
    rw [List.flatMap_nil, List.flatMap_cons, hbytes]
    exact .nil
  | rel h => exact byteLess_of_char_lt h _ _
  | cons _ ih => exact byteLess_append_left ih _

lemma byteLess_of_lt {a b : String} (h : a < b) : ByteLess (utf8Bytes a) (utf8Bytes b) := by
  rw [utf8Bytes_eq, utf8Bytes_eq]
  exact byteLess_flatMap h

lemma le_iff_byteLess {a b : String} : a ≤ b ↔ a = b ∨ ByteLess (utf8Bytes a) (utf8Bytes b) := by
  constructor
  · intro h
    by_cases hba : b ≤ a
    · exact .inl (String.le_antisymm h hba)
    · exact .inr (byteLess_of_lt (String.not_le.mp hba))
  · rintro (rfl | h)
    · exact String.le_refl a
    · exact String.not_lt.mp fun hlt => List.lt_asymm h (byteLess_of_lt hlt)

end Machine16
