import Mathlib.Logic.Basic
import Mathlib.Data.List.TakeWhile
import Machine16.Assembly.Grammar.Statement
import Machine16.Proofs.Outcomes

/-! The spellings of a text. Names and punctuation stand as they are; the letters of words and numbers
may be written in either case. -/
namespace Machine16

/-- The text without its case. -/
def lowerCase (cs : List Char) : List Char := cs.map Char.toLower

@[simp] lemma lowerCase_nil : lowerCase [] = [] := rfl

@[simp] lemma lowerCase_cons (c : Char) (cs : List Char) :
    lowerCase (c :: cs) = c.toLower :: lowerCase cs := rfl

@[simp] lemma length_lowerCase (cs : List Char) : (lowerCase cs).length = cs.length := List.length_map _

/-- The letters that have another case to go to. -/
def capitals : List Char := (List.range 26).map fun n => Char.ofNat (n + 65)

lemma toLower_eq_or (c : Char) : c.toLower = c ∨ c ∈ capitals := by
  by_cases h : 'A'.val ≤ c.val ∧ c.val ≤ 'Z'.val
  · right
    obtain ⟨hle, hge⟩ := h
    have hle' : 65 ≤ c.toNat := UInt32.le_iff_toNat_le.mp hle
    have hge' : c.toNat ≤ 90 := UInt32.le_iff_toNat_le.mp hge
    exact List.mem_map.mpr ⟨c.toNat - 65, List.mem_range.mpr (by omega),
      by rw [Nat.sub_add_cancel hle', Char.ofNat_toNat]⟩
  · left
    exact dif_neg h

lemma ne_of_isNameStart {c d : Char} (hc : isNameStart c = true) (hd : isNameStart d = false) : c ≠ d := by
  rintro rfl
  rw [hc] at hd
  cases hd

/-- What holds of the capitals holds of every character, as the others stay as they are. -/
lemma toLower_invariant {α : Type} [BEq α] [LawfulBEq α] {f : Char → α}
    (h : capitals.all (fun c => f c.toLower == f c) = true) (c : Char) : f c.toLower = f c := by
  obtain hsame | hcapital := toLower_eq_or c
  · rw [hsame]
  · exact eq_of_beq (List.all_eq_true.mp h c hcapital)

lemma toLower_toLower (c : Char) : c.toLower.toLower = c.toLower := toLower_invariant (by decide) c

lemma isNameStart_toLower (c : Char) : isNameStart c.toLower = isNameStart c :=
  toLower_invariant (by decide) c

lemma isNameChar_toLower (c : Char) : isNameChar c.toLower = isNameChar c :=
  toLower_invariant (by decide) c

namespace Hex

lemma isDigit_toLower (c : Char) : isDigit c.toLower = isDigit c := toLower_invariant (by decide) c

lemma digitValue_toLower (c : Char) : digitValue c.toLower = digitValue c := toLower_invariant (by decide) c

lemma value_lowerCase (cs : List Char) : value (lowerCase cs) = value cs := by
  rw [value, lowerCase, List.foldl_map]
  simp only [digitValue_toLower]
  rfl

lemma isDigit_of_mem_toDigits {n : Nat} {c : Char} (h : c ∈ Nat.toDigits 16 n) : isDigit c = true := by
  have hdigit : ∀ d < 16, isDigit (Nat.digitChar d) = true := by decide
  induction n using Nat.strongRecOn with
  | ind n ih =>
    rw [Nat.toDigits_eq_if (by omega)] at h
    split_ifs at h with hn
    · rw [List.mem_singleton.mp h]
      exact hdigit n hn
    · obtain h | h := List.mem_append.mp h
      · exact ih (n / 16) (by omega) h
      · rw [List.mem_singleton.mp h]
        exact hdigit (n % 16) (by omega)

lemma isDigit_of_mem_digits {k n : Nat} {c : Char} (h : c ∈ digits k n) : isDigit c = true := by
  rw [digits, List.leftpad, List.mem_append] at h
  obtain h | h := h
  · rw [List.eq_of_mem_replicate h]
    rfl
  · exact isDigit_of_mem_toDigits h

lemma length_digits (k n : Nat) : (digits k n).length = max k (Nat.toDigits 16 n).length :=
  List.length_leftpad

lemma isNameChar_of_isDigit {c : Char} (h : isDigit c = true) : isNameChar c = true := by
  have hclass : isNameChar c = (c.isUpper || c.isLower || c.isDigit || c == '_') := rfl
  simp only [isDigit, Bool.or_eq_true, Bool.and_eq_true, decide_eq_true_eq] at h
  simp only [hclass, Bool.or_eq_true]
  obtain (h | ⟨hlo, hhi⟩) | ⟨hlo, hhi⟩ := h
  · exact .inl (.inr h)
  · have hrange : 'a' ≤ c ∧ c ≤ 'z' := ⟨hlo, Char.le_trans hhi (by decide)⟩
    exact .inl (.inl (.inr (Bool.and_eq_true_iff.mpr ⟨decide_eq_true hrange.1, decide_eq_true hrange.2⟩)))
  · have hrange : 'A' ≤ c ∧ c ≤ 'Z' := ⟨hlo, Char.le_trans hhi (by decide)⟩
    exact .inl (.inl (.inl (decide_eq_true hrange)))

end Hex

/-- A part of a text. -/
inductive Piece
  /-- Characters that stand as they are. -/
  | exact (text : String)
  /-- A word or a number, which may be written in either case. -/
  | word (text : String)

def Piece.text : Piece → List Char
  | exact t | word t => t.toList

/-- The pieces as they are printed. -/
def joined (ps : List Piece) : List Char := ps.flatMap Piece.text

/-- A text that is made of the pieces. -/
def Spelled : List Piece → List Char → Prop
  | [], cs => cs = []
  | .exact t :: ps, cs => ∃ rest, cs = t.toList ++ rest ∧ Spelled ps rest
  | .word t :: ps, cs => ∃ as rest, cs = as ++ rest ∧ lowerCase as = lowerCase t.toList ∧ Spelled ps rest

namespace Spelled

variable {ps qs : List Piece} {cs : List Char}

lemma append_iff : Spelled (ps ++ qs) cs ↔ ∃ as bs, cs = as ++ bs ∧ Spelled ps as ∧ Spelled qs bs := by
  induction ps generalizing cs with
  | nil =>
    constructor
    · exact fun h => ⟨[], cs, rfl, rfl, h⟩
    · rintro ⟨_, bs, rfl, rfl, h⟩
      exact h
  | cons p ps ih =>
    cases p with
    | exact t =>
      simp only [List.cons_append, Spelled, ih]
      constructor
      · rintro ⟨_, rfl, as, bs, rfl, has, hbs⟩
        exact ⟨t.toList ++ as, bs, (List.append_assoc ..).symm, ⟨as, rfl, has⟩, hbs⟩
      · rintro ⟨_, bs, rfl, ⟨as, rfl, has⟩, hbs⟩
        exact ⟨as ++ bs, List.append_assoc .., as, bs, rfl, has, hbs⟩
    | word t =>
      simp only [List.cons_append, Spelled, ih]
      constructor
      · rintro ⟨w, _, rfl, hw, as, bs, rfl, has, hbs⟩
        exact ⟨w ++ as, bs, (List.append_assoc ..).symm, ⟨w, as, rfl, hw, has⟩, hbs⟩
      · rintro ⟨_, bs, rfl, ⟨w, as, rfl, hw, has⟩, hbs⟩
        exact ⟨w, as ++ bs, List.append_assoc .., hw, as, bs, rfl, has, hbs⟩

/-- The printed text is one of the spellings. -/
lemma joined (ps : List Piece) : Spelled ps (joined ps) := by
  induction ps with
  | nil => rfl
  | cons p ps ih =>
    cases p with
    | exact t => exact ⟨_, rfl, ih⟩
    | word t => exact ⟨_, _, rfl, rfl, ih⟩

lemma lowerCase_eq (h : Spelled ps cs) : lowerCase cs = lowerCase (Machine16.joined ps) := by
  induction ps generalizing cs with
  | nil => rw [h]; rfl
  | cons p ps ih =>
    cases p with
    | exact t =>
      obtain ⟨rest, rfl, h⟩ := h
      simp [Machine16.joined, Piece.text, lowerCase] at ih ⊢
      exact ih h
    | word t =>
      obtain ⟨as, rest, rfl, has, h⟩ := h
      simp [Machine16.joined, Piece.text, lowerCase] at ih has ⊢
      rw [has, ih h]

end Spelled

/-- Characters of a class end where the text stops to be of it. -/
lemma span_of_stops {f : Char → Bool} {as rest : List Char} (has : ∀ c ∈ as, f c = true)
    (hrest : Stops f rest) : (as ++ rest).takeWhile f = as ∧ (as ++ rest).dropWhile f = rest := by
  have hnone : rest.takeWhile f = [] ∧ rest.dropWhile f = rest := by
    cases rest with
    | nil => exact ⟨rfl, rfl⟩
    | cons c rest => simp [stops_cons.mp hrest]
  rw [List.takeWhile_append_of_pos has, List.dropWhile_append_of_pos has, hnone.1, hnone.2,
    List.append_nil]
  exact ⟨rfl, rfl⟩

namespace Parser

variable {f : Char → Bool} {as rest : List Char}

lemma takeWhile_of_stops (has : ∀ c ∈ as, f c = true) (hrest : Stops f rest) :
    takeWhile f (as ++ rest) = .done as rest := by
  obtain ⟨htake, hdrop⟩ := span_of_stops has hrest
  rw [takeWhile, htake, hdrop]

lemma takeWhile1_of_stops (hne : as ≠ []) (has : ∀ c ∈ as, f c = true) (hrest : Stops f rest) :
    takeWhile1 f (as ++ rest) = .done as rest := by
  cases as with
  | nil => exact absurd rfl hne
  | cons a as =>
    rw [List.forall_mem_cons] at has
    refine (bind_of_done (charIf_eq_done.mpr ⟨rfl, has.1⟩) _).trans ?_
    exact (bind_of_done (takeWhile_of_stops has.2 hrest) _).trans rfl

end Parser

namespace Grammar

open Machine16.Parser

variable {as rest : List Char}

lemma isName_lowerCase (cs : List Char) : isName (lowerCase cs) = isName cs := by
  cases cs with
  | nil => rfl
  | cons c cs => simp [isName, lowerCase, isNameStart_toLower, isNameChar_toLower, Function.comp_def]

lemma isNameChar_of_isNameStart {c : Char} (h : isNameStart c = true) : isNameChar c = true := by
  simp only [isNameStart, isNameChar, Char.isAlphanum, Bool.or_eq_true] at h ⊢
  exact h.imp_left .inl

lemma isNameChar_of_isName {cs : List Char} (h : isName cs = true) : ∀ c ∈ cs, isNameChar c = true := by
  cases cs with
  | nil => cases h
  | cons c cs =>
    rw [isName, Bool.and_eq_true, List.all_eq_true] at h
    exact List.forall_mem_cons.mpr ⟨isNameChar_of_isNameStart h.1, h.2⟩

lemma stops_of_isName {f : Char → Bool} (hf : ∀ c, isNameStart c = true → f c = false)
    (has : isName as = true) (rest : List Char) : Stops f (as ++ rest) := by
  cases as with
  | nil => cases has
  | cons a as =>
    rw [isName, Bool.and_eq_true] at has
    exact stops_cons.mpr (hf a has.1)

lemma name_of_isName (has : isName as = true) (hrest : Stops isNameChar rest) :
    name (as ++ rest) = .done (String.ofList as) rest := by
  cases as with
  | nil => cases has
  | cons a as =>
    rw [isName, Bool.and_eq_true, List.all_eq_true] at has
    refine (bind_of_done (charIf_eq_done.mpr ⟨rfl, has.1⟩) _).trans ?_
    exact (bind_of_done (takeWhile_of_stops has.2 hrest) _).trans rfl

/-- A word is read letter by letter, or the text leaves it at some letter. -/
lemma letters_of_stops {ws : List Char} (hws : ∀ w ∈ ws, isNameChar w = true)
    (has : ∀ c ∈ as, isNameChar c = true) (hrest : Stops isNameChar rest) :
    (letters ws).Misses (as ++ rest) ∨ ∃ as', letters ws (as ++ rest) = .done () (as' ++ rest) ∧
      lowerCase as = ws ++ lowerCase as' ∧ ∀ c ∈ as', isNameChar c = true := by
  induction ws generalizing as with
  | nil => exact .inr ⟨as, rfl, rfl, has⟩
  | cons w ws ih =>
    rw [List.forall_mem_cons] at hws
    cases as with
    | nil =>
      refine .inl ((charIf_misses fun c hc => ?_).bind _)
      rw [beq_eq_false_iff_ne]
      rintro rfl
      rw [isNameChar_toLower, hrest c hc] at hws
      exact Bool.false_ne_true hws.1
    | cons a as =>
      rw [List.forall_mem_cons] at has
      by_cases ha : a.toLower = w
      · have hchar : charIf (fun c => c.toLower == w) (a :: as ++ rest) = .done a (as ++ rest) :=
          charIf_eq_done.mpr ⟨rfl, beq_iff_eq.mpr ha⟩
        obtain hmiss | ⟨as', hdone, hlower, has'⟩ := ih hws.2 has.2
        · exact .inl (misses_bind_of_done hchar hmiss)
        · exact .inr ⟨as', (bind_of_done hchar _).trans hdone, by simp [ha, hlower], has'⟩
      · refine .inl ((charIf_misses ?_).bind _)
        rintro c ⟨⟩
        exact beq_eq_false_iff_ne.mpr ha

lemma letters_of_lowerCase {ws : List Char} (has : lowerCase as = ws) :
    letters ws (as ++ rest) = .done () rest := by
  subst has
  induction as with
  | nil => rfl
  | cons a as ih =>
    have hchar : charIf (fun c => c.toLower == a.toLower) (a :: as ++ rest) = .done a (as ++ rest) :=
      charIf_eq_done.mpr ⟨rfl, beq_self_eq_true _⟩
    exact (bind_of_done hchar _).trans ih

lemma keyword_of_lowerCase {w : String} (has : lowerCase as = w.toList)
    (hrest : Stops (fun c => isNameChar c || c == ':') rest) :
    keyword w (as ++ rest) = .done () rest :=
  (bind_of_done (letters_of_lowerCase has) _).trans (notBefore_of_misses (charIf_misses hrest))

/-- A keyword is not the beginning of a longer word, and not a label. -/
lemma keyword_misses {w : String} (hw : isName w.toList = true)
    (has : ∀ c ∈ as, isNameChar c = true) (hrest : Stops isNameChar rest)
    (hother : lowerCase as ≠ w.toList ∨ rest.head? = some ':') : (keyword w).Misses (as ++ rest) := by
  obtain hmiss | ⟨as', hdone, hlower, has'⟩ := letters_of_stops (isNameChar_of_isName hw) has hrest
  · exact hmiss.bind _
  refine misses_bind_of_done hdone ?_
  cases as' with
  | cons c as' =>
    rw [List.forall_mem_cons] at has'
    exact misses_notBefore (charIf_eq_done.mpr ⟨rfl, by simp [has'.1]⟩)
  | nil =>
    cases rest with
    | nil => simp_all
    | cons c rest =>
      obtain rfl : c = ':' := by simp_all
      exact misses_notBefore (charIf_eq_done.mpr ⟨rfl, by decide⟩)

lemma digits_of_stops (hne : as ≠ []) (has : ∀ c ∈ as, Hex.isDigit c = true)
    (hrest : Stops isNameChar rest) : digits (as ++ rest) = .done as rest := by
  have hend : Stops Hex.isDigit rest := hrest.mono fun _ => Hex.isNameChar_of_isDigit
  refine (bind_of_done (takeWhile1_of_stops hne has hend) _).trans ?_
  exact (bind_of_done (notBefore_of_misses (charIf_misses hrest)) _).trans rfl

/-- Digits in either case, no more than the number needs or filled up with zeros. -/
lemma isDigit_of_lowerCase {k n : Nat} (has : lowerCase as = lowerCase (Hex.digits k n)) :
    as ≠ [] ∧ (∀ c ∈ as, Hex.isDigit c = true) ∧ Hex.value as = n := by
  refine ⟨?_, fun c hc => ?_, ?_⟩
  · rintro rfl
    have hlength := congrArg List.length has
    rw [length_lowerCase, length_lowerCase, Hex.length_digits] at hlength
    have hpos : 0 < (Nat.toDigits 16 n).length := Nat.length_toDigits_pos
    rw [List.length_nil] at hlength
    omega
  · have hmem : c.toLower ∈ lowerCase (Hex.digits k n) := has ▸ List.mem_map_of_mem hc
    obtain ⟨d, hd, heq⟩ := List.mem_map.mp hmem
    rw [← Hex.isDigit_toLower, ← heq, Hex.isDigit_toLower]
    exact Hex.isDigit_of_mem_digits hd
  · rw [← Hex.value_lowerCase, has, Hex.value_lowerCase, Hex.value_digits]

lemma number_of_lowerCase {k : Nat} {v : UInt32}
    (has : lowerCase as = lowerCase (Hex.digits k v.toNat)) (hrest : Stops isNameChar rest) :
    number (as ++ rest) = .done v rest := by
  obtain ⟨hne, hdigits, hvalue⟩ := isDigit_of_lowerCase has
  rw [number, digits_of_stops hne hdigits hrest]
  simp only [hvalue]
  rw [if_pos v.toNat_lt_size, UInt32.ofNat_toNat]

end Grammar

namespace Register

lemma ofName?_lowerCase (cs : List Char) :
    ofName? (String.ofList (lowerCase cs)) = ofName? (String.ofList cs) := by
  simp only [ofName?, String.toList_ofList, lowerCase, List.map_map, Function.comp_def, toLower_toLower]

lemma ofName?_name (r : Register) : ofName? r.name = some r := by
  cases r <;> decide

lemma isName_name (r : Register) : isName r.name.toList = true := by
  cases r <;> decide

/-- No register has a long name. -/
lemma ofName?_eq_none {name : String} (h : 3 < name.toList.length) : ofName? name = none := by
  have hall : ∀ r ∈ all, r.name.toList.length ≤ 3 := by decide
  rw [ofName?, List.find?_eq_none]
  intro r hr hname
  have hlength := congrArg List.length (beq_iff_eq.mp hname)
  rw [List.length_map] at hlength
  have := hall r hr
  omega

end Register

namespace Grammar

open Machine16.Parser

variable {as rest : List Char}

lemma isName_of_lowerCase {bs : List Char} (h : lowerCase as = lowerCase bs) (hbs : isName bs = true) :
    isName as = true := by
  rw [← isName_lowerCase, h, isName_lowerCase, hbs]

lemma register_of_lowerCase {r : Register} (has : lowerCase as = lowerCase r.name.toList)
    (hrest : Stops isNameChar rest) : register (as ++ rest) = .done r rest := by
  have hname := isName_of_lowerCase has r.isName_name
  refine select_eq_done.mpr ⟨_, name_of_isName hname hrest, ?_⟩
  rw [← Register.ofName?_lowerCase, has, Register.ofName?_lowerCase, String.ofList_toList,
    Register.ofName?_name]

/-- A number of four digits is not a register, even if it could be a name. -/
lemma register_misses_of_length (hlength : 3 < as.length) (has : ∀ c ∈ as, isNameChar c = true)
    (hrest : Stops isNameChar rest) : register.Misses (as ++ rest) := by
  obtain - | ⟨a, as⟩ := as
  · cases hlength
  cases ha : isNameStart a with
  | false =>
    refine register_misses ?_
    rintro c ⟨⟩
    exact ha
  | true =>
    have hname : isName (a :: as) = true := by
      rw [List.forall_mem_cons] at has
      rw [isName, ha, Bool.true_and, List.all_eq_true]
      exact has.2
    refine misses_select.mpr (.inr ⟨_, _, name_of_isName hname hrest, Register.ofName?_eq_none ?_⟩)
    rwa [String.toList_ofList]

end Grammar
end Machine16
