import Mathlib.Data.List.Induction
import Machine16.Text.Location

/-! Line and column numbers of byte offsets. The line counts the line breaks before the offset, and the
column the characters of the line that stand before it. Offsets between characters have a place, and so
have those past the end. In the order of reading, places come as their offsets do. -/
namespace Machine16

/-- A place between two characters of a text, or at one of its ends. -/
def IsBoundary (cs : List Char) (offset : Nat) : Prop :=
  ∃ before after, cs = before ++ after ∧ byteLength before = offset

/-- The order of reading: line by line, and in a line from left to right. -/
instance : LT Location := ⟨fun l m => l.line < m.line ∨ l.line = m.line ∧ l.column < m.column⟩

namespace Location

variable {l m n : Location}

lemma lt_iff : l < m ↔ l.line < m.line ∨ l.line = m.line ∧ l.column < m.column := Iff.rfl

lemma lt_irrefl (l : Location) : ¬ l < l := by
  rw [lt_iff]
  omega

lemma lt_trans (h : l < m) (h' : m < n) : l < n := by
  rw [lt_iff] at *
  omega

lemma lt_next (l : Location) (c : Char) : l < l.next c := by
  rw [lt_iff, next]
  split_ifs
  · exact .inl l.line.lt_succ_self
  · exact .inr ⟨rfl, l.column.lt_succ_self⟩

lemma lt_after {cs : List Char} (h : cs ≠ []) (l : Location) : l < l.after cs := by
  induction cs generalizing l with
  | nil => exact absurd rfl h
  | cons c cs ih =>
    change l < (l.next c).after cs
    by_cases hcs : cs = []
    · subst hcs
      exact l.lt_next c
    · exact lt_trans (l.lt_next c) (ih hcs _)

/-- Lines go on from the line where a text begins; columns do not depend on it. -/
lemma after_add_line (l : Location) (k : Nat) (cs : List Char) :
    after ⟨l.line + k, l.column⟩ cs = ⟨(after l cs).line + k, (after l cs).column⟩ := by
  induction cs generalizing l with
  | nil => rfl
  | cons c cs ih =>
    simp only [after, List.foldl_cons] at ih ⊢
    by_cases hc : c = '\n'
    · simpa [next, hc, Nat.add_right_comm] using ih ⟨l.line + 1, 1⟩
    · simpa [next, hc] using ih ⟨l.line, l.column + 1⟩

lemma line_after (l : Location) (cs : List Char) : (after l cs).line = l.line + cs.count '\n' := by
  induction cs generalizing l with
  | nil => rfl
  | cons c cs ih =>
    simp only [after, List.foldl_cons] at ih ⊢
    rw [ih, List.count_cons]
    by_cases hc : c = '\n'
    · simp [next, hc]
      omega
    · simp [next, hc]

/-- Every line break leads to the beginning of a line. -/
lemma after_newline (l : Location) (cs : List Char) :
    l.after (cs ++ ['\n']) = ⟨l.line + (cs.count '\n' + 1), 1⟩ := by
  rw [after_append]
  change next _ '\n' = _
  rw [next, if_pos rfl, line_after, Nat.add_assoc]

lemma after_line {line : List Char} (h : '\n' ∉ line) (l : Location) :
    l.after line = ⟨l.line, l.column + line.length⟩ := by
  induction line generalizing l with
  | nil => rfl
  | cons c line ih =>
    obtain ⟨hc, hline⟩ := List.ne_and_not_mem_of_not_mem_cons h
    have hnext : l.next c = ⟨l.line, l.column + 1⟩ := if_neg (Ne.symm hc)
    change (l.next c).after line = _
    rw [ih hline, hnext, List.length_cons, Nat.add_assoc, Nat.add_comm 1]

/-- Whole lines, and the beginning of a line behind them. -/
lemma after_lines {above line : List Char} (habove : ∀ c ∈ above.getLast?, c = '\n') (hline : '\n' ∉ line) :
    after ⟨1, 1⟩ (above ++ line) = ⟨above.count '\n' + 1, line.length + 1⟩ := by
  have hstart : after ⟨1, 1⟩ above = ⟨above.count '\n' + 1, 1⟩ := by
    obtain rfl | ⟨before, c, rfl⟩ := List.eq_nil_or_concat above
    · rfl
    · obtain rfl : c = '\n' := habove c (by simp)
      rw [List.concat_eq_append, after_newline, List.count_append, List.count_singleton_self, Nat.add_comm]
  rw [after_append, hstart, after_line hline, Nat.add_comm 1]

lemma exists_lines (cs : List Char) :
    ∃ above line, cs = above ++ line ∧ (∀ c ∈ above.getLast?, c = '\n') ∧ '\n' ∉ line := by
  induction cs using List.reverseRecOn with
  | nil => exact ⟨[], [], rfl, by simp, by simp⟩
  | append_singleton cs c ih =>
    obtain ⟨above, line, rfl, habove, hline⟩ := ih
    by_cases hc : c = '\n'
    · exact ⟨above ++ line ++ [c], [], by simp, by simp [hc], by simp⟩
    · exact ⟨above, line ++ [c], by simp, habove, by simp [hline, Ne.symm hc]⟩

/-- The place of an offset in a text. In front of the offset, or of the end of the text if this comes first,
there are the whole lines `above` and the beginning `line` of a line. -/
def IsAt (l : Location) (text : List Char) (offset : Nat) : Prop :=
  ∃ above line rest, text = above ++ line ++ rest ∧
    byteLength (above ++ line) = min offset (byteLength text) ∧
    (∀ c ∈ above.getLast?, c = '\n') ∧ '\n' ∉ line ∧
    l.line = above.count '\n' + 1 ∧ l.column = line.length + 1

variable {text : List Char} {offset : Nat}

lemma ofOffset?_eq_some_iff_after : ofOffset? text offset = some l ↔ ∃ before rest, text = before ++ rest ∧
    byteLength before = min offset (byteLength text) ∧ l = after ⟨1, 1⟩ before := by
  rw [ofOffset?, ite_eq_iff]
  constructor
  · rintro (⟨hlength, heq⟩ | ⟨-, heq⟩)
    · exact ⟨_, _, (takeBytes_append_dropBytes _ text).symm, hlength, (Option.some.inj heq).symm⟩
    · cases heq
  · rintro ⟨before, rest, htext, hlength, rfl⟩
    have htake : takeBytes (min offset (byteLength text)) text = before := by
      rw [← hlength, htext, takeBytes_append]
    exact .inl ⟨by rw [htake, hlength], by rw [htake]⟩

/-- The place that is counted is the place of the offset. -/
lemma ofOffset?_eq_some : ofOffset? text offset = some l ↔ l.IsAt text offset := by
  rw [ofOffset?_eq_some_iff_after]
  constructor
  · rintro ⟨before, rest, rfl, hlength, rfl⟩
    obtain ⟨above, line, rfl, habove, hline⟩ := exists_lines before
    rw [after_lines habove hline]
    exact ⟨above, line, rest, rfl, hlength, habove, hline, rfl, rfl⟩
  · rintro ⟨above, line, rest, htext, hlength, habove, hline, hl, hcolumn⟩
    refine ⟨above ++ line, rest, htext, hlength, ?_⟩
    rw [after_lines habove hline, ← hl, ← hcolumn]

/-- An offset has a place unless it lies inside of a character. -/
lemma ofOffset?_eq_none :
    ofOffset? text offset = none ↔ ¬ IsBoundary text (min offset (byteLength text)) := by
  rw [← not_iff_not, not_not, ← ne_eq, Option.ne_none_iff_exists']
  constructor
  · rintro ⟨l, h⟩
    obtain ⟨before, rest, htext, hlength, -⟩ := ofOffset?_eq_some_iff_after.mp h
    exact ⟨before, rest, htext, hlength⟩
  · rintro ⟨before, rest, htext, hlength⟩
    exact ⟨_, ofOffset?_eq_some_iff_after.mpr ⟨before, rest, htext, hlength, rfl⟩⟩

lemma ofOffset?_append (cs ds : List Char) :
    ofOffset? (cs ++ ds) (byteLength cs) = some (after ⟨1, 1⟩ cs) := by
  refine ofOffset?_eq_some_iff_after.mpr ⟨cs, ds, rfl, ?_, rfl⟩
  rw [byteLength_append, Nat.min_eq_left (Nat.le_add_right _ _)]

/-- A letter of two bytes is one column, and its second byte is no place. -/
example : ofOffset? "a\né;".toList 4 = some ⟨2, 2⟩ ∧ ofOffset? "a\né;".toList 3 = none := by decide +kernel

end Location

namespace IsBoundary

variable {cs : List Char} {a b : Nat} {l : Location}

lemma min_byteLength (h : IsBoundary cs a) : IsBoundary cs (min a (byteLength cs)) := by
  obtain ⟨before, after, rfl, rfl⟩ := h
  rw [byteLength_append, Nat.min_eq_left (Nat.le_add_right _ _)]
  exact ⟨before, after, rfl, rfl⟩

/-- Of two places of a text the later one lies behind more characters. -/
lemma ofOffset?_lt (ha : IsBoundary cs a) (hb : IsBoundary cs b) (h : a < b) :
    ∃ l m, Location.ofOffset? cs a = some l ∧ Location.ofOffset? cs b = some m ∧ l < m := by
  obtain ⟨before, after, rfl, rfl⟩ := ha
  obtain ⟨before', after', hsplit, rfl⟩ := hb
  obtain ⟨between, rfl⟩ : before <+: before' := by
    obtain hprefix | ⟨_, rfl⟩ := List.prefix_or_prefix_of_prefix (List.prefix_append before after)
      (hsplit ▸ List.prefix_append before' after')
    · exact hprefix
    · rw [byteLength_append] at h
      omega
  have hne : between ≠ [] := by
    rintro rfl
    rw [List.append_nil] at h
    exact absurd h (Nat.lt_irrefl _)
  refine ⟨_, _, Location.ofOffset?_append before after, hsplit ▸ Location.ofOffset?_append _ after', ?_⟩
  rw [Location.after_append]
  exact Location.lt_after hne _

lemma eq_of_ofOffset?_eq (ha : IsBoundary cs a) (hb : IsBoundary cs b)
    (hal : Location.ofOffset? cs a = some l) (hbl : Location.ofOffset? cs b = some l) : a = b := by
  -- the place would come before itself
  have hlt {a b : Nat} (ha : IsBoundary cs a) (hb : IsBoundary cs b)
      (hal : Location.ofOffset? cs a = some l) (hbl : Location.ofOffset? cs b = some l) : ¬ a < b := by
    intro h
    obtain ⟨l', m, hl', hm, hlm⟩ := ha.ofOffset?_lt hb h
    cases hl'.symm.trans hal
    cases hm.symm.trans hbl
    exact Location.lt_irrefl _ hlm
  exact Nat.le_antisymm (Nat.le_of_not_lt (hlt hb ha hbl hal)) (Nat.le_of_not_lt (hlt ha hb hal hbl))

end IsBoundary

namespace Span

variable {s : Span} {text : List Char}

/-- Each end of the span lies between characters of the text, or past its end. -/
def Fits (s : Span) (text : List Char) : Prop :=
  IsBoundary text (min s.start (byteLength text)) ∧ IsBoundary text (min s.stop (byteLength text))

lemma lines?_eq_some {l : LineSpan} :
    s.lines? text = some l ↔ l.start.IsAt text s.start ∧ l.stop.IsAt text s.stop := by
  obtain ⟨start, stop⟩ := l
  rw [← Location.ofOffset?_eq_some, ← Location.ofOffset?_eq_some, lines?]
  cases Location.ofOffset? text s.start <;> cases Location.ofOffset? text s.stop <;> simp

lemma lines?_eq_none : s.lines? text = none ↔ ¬ s.Fits text := by
  rw [Fits, not_and_or, ← Location.ofOffset?_eq_none, ← Location.ofOffset?_eq_none, lines?]
  cases Location.ofOffset? text s.start <;> cases Location.ofOffset? text s.stop <;> simp

end Span
end Machine16
