import Machine16.Assembly.Grouping
import Machine16.Proofs.Spelling

/-! Printed tokens are read back. A printed token is scanned as that token, if nothing behind it makes it
longer, and blanks between printed tokens keep them apart. -/
namespace Machine16

namespace Token

/-- The names in a token are names. -/
def Named : Token → Prop
  | symbol n | name n => isName n.toList = true
  | _ => True

def pieces : Token → List Piece
  | number v => [.exact "$", .word (Hex.format 1 v.toNat)]
  | symbol n => [.exact "!", .exact n]
  | t => [.exact t.print]

/-- Text that does not make the token longer. -/
def Ends : Token → List Char → Prop
  | number _ => Stops Hex.isDigit
  | symbol _ | name _ => Stops isNameChar
  | _ => fun _ => True

lemma Ends.of_stops {rest : List Char} (h : Stops isNameChar rest) (t : Token) : t.Ends rest := by
  cases t with
  | number => exact h.mono fun _ => Hex.isNameChar_of_isDigit
  | symbol | name => exact h
  | _ => trivial

variable {t : Token} {cs rest : List Char}

lemma next_number {k : Nat} {v : UInt32} (hcs : lowerCase cs = lowerCase (Hex.digits k v.toNat))
    (hrest : Stops Hex.isDigit rest) : next '$' (cs ++ rest) = (number v, rest) := by
  obtain ⟨hnil, hdigits, hvalue⟩ := Grammar.isDigit_of_lowerCase hcs
  obtain ⟨htake, hdrop⟩ := span_of_stops hdigits hrest
  unfold next
  rw [if_pos rfl, htake, hdrop]
  cases cs with
  | nil => exact absurd rfl hnil
  | cons c cs =>
    simp only
    rw [ofDigits, hvalue, if_pos v.toNat_lt_size, UInt32.ofNat_toNat]

lemma next_symbol {n : String} (hn : isName n.toList = true) (hrest : Stops isNameChar rest) :
    next '!' (n.toList ++ rest) = (symbol n, rest) := by
  unfold next
  rw [if_neg (by decide), if_pos rfl]
  cases hcs : n.toList with
  | nil =>
    rw [hcs] at hn
    cases hn
  | cons c cs =>
    rw [hcs, isName, Bool.and_eq_true, List.all_eq_true] at hn
    obtain ⟨htake, hdrop⟩ := span_of_stops hn.2 hrest
    rw [List.cons_append]
    simp only
    rw [if_pos hn.1, htake, hdrop, ← hcs, String.ofList_toList]

lemma next_name {n : String} {c : Char} (hcs : n.toList = c :: cs) (hn : isName n.toList = true)
    (hrest : Stops isNameChar rest) : isBlank c = false ∧ next c (cs ++ rest) = (name n, rest) := by
  rw [hcs, isName, Bool.and_eq_true, List.all_eq_true] at hn
  obtain ⟨htake, hdrop⟩ := span_of_stops hn.2 hrest
  have hother {d : Char} : isNameStart d = false → c ≠ d := ne_of_isNameStart hn.1
  constructor
  · simp only [isBlank, Bool.or_eq_false_iff, beq_eq_false_iff_ne]
    exact ⟨⟨⟨⟨hother (by decide), hother (by decide)⟩, hother (by decide)⟩, hother (by decide)⟩,
      hother (by decide)⟩
  · unfold next
    rw [if_neg (hother (by decide)), if_neg (hother (by decide)), if_pos hn.1, htake, hdrop, ← hcs,
      String.ofList_toList]

lemma next_ofChar {c : Char} (hc : ofChar c ≠ unknown) (rest : List Char) :
    isBlank c = false ∧ next c rest = (ofChar c, rest) := by
  unfold ofChar at hc
  split at hc <;> first | exact ⟨rfl, rfl⟩ | contradiction

/-- The text of a token is read as the token, if nothing behind it makes it longer. -/
lemma next_of_spelled (hne : t ≠ unknown) (ht : t.Named) (h : Spelled t.pieces cs)
    (hrest : t.Ends rest) :
    ∃ c ds, cs = c :: ds ∧ isBlank c = false ∧ next c (ds ++ rest) = (t, rest) := by
  have hchar {c : Char} (hc : ofChar c = t) (hcs : cs = [c]) :
      ∃ c ds, cs = c :: ds ∧ isBlank c = false ∧ next c (ds ++ rest) = (t, rest) :=
    ⟨c, [], hcs, hc ▸ next_ofChar (hc ▸ hne) rest⟩
  cases t with
  | unknown => exact absurd rfl hne
  | number v =>
    obtain ⟨_, rfl, as, _, rfl, has, rfl⟩ := h
    rw [Hex.toList_format] at has
    exact ⟨'$', as, by simp, rfl, next_number has hrest⟩
  | symbol n =>
    obtain ⟨_, rfl, _, rfl, rfl⟩ := h
    exact ⟨'!', n.toList, by simp, rfl, next_symbol ht hrest⟩
  | name n =>
    obtain ⟨_, rfl, rfl⟩ := h
    cases hcs : n.toList with
    | nil =>
      rw [Named, hcs] at ht
      cases ht
    | cons c cs => exact ⟨c, cs, by simp [print, hcs], next_name hcs ht hrest⟩
  | operator op =>
    obtain ⟨_, rfl, rfl⟩ := h
    cases op with
    | add => exact hchar (c := '+') rfl rfl
    | subtract => exact hchar (c := '-') rfl rfl
    | multiply => exact hchar (c := '*') rfl rfl
    | divide => exact hchar (c := '/') rfl rfl
    | and => exact hchar (c := '&') rfl rfl
    | or => exact hchar (c := '|') rfl rfl
    | xor => exact hchar (c := '^') rfl rfl
  | less =>
    obtain ⟨_, rfl, rfl⟩ := h
    exact hchar (c := '<') rfl rfl
  | greater =>
    obtain ⟨_, rfl, rfl⟩ := h
    exact hchar (c := '>') rfl rfl
  | dot =>
    obtain ⟨_, rfl, rfl⟩ := h
    exact hchar (c := '.') rfl rfl
  | openParen =>
    obtain ⟨_, rfl, rfl⟩ := h
    exact hchar (c := '(') rfl rfl
  | closeParen =>
    obtain ⟨_, rfl, rfl⟩ := h
    exact hchar (c := ')') rfl rfl

lemma scanAt_blank {c : Char} (hc : isBlank c = true) (offset : Nat) (cs : List Char) :
    scanAt offset (c :: cs) = scanAt (offset + c.utf8Size) cs := by
  rw [scanAt, if_pos hc]

lemma scanAt_of_spelled (hne : t ≠ unknown) (ht : t.Named) (h : Spelled t.pieces cs)
    (hrest : t.Ends rest) (offset : Nat) :
    scanAt offset (cs ++ rest) =
      ⟨t, offset, offset + byteLength cs⟩ :: scanAt (offset + byteLength cs) rest := by
  obtain ⟨c, ds, rfl, hblank, hnext⟩ := next_of_spelled hne ht h hrest
  have hlength : offset + (byteLength (c :: (ds ++ rest)) - byteLength rest) =
      offset + byteLength (c :: ds) := by
    rw [← List.cons_append, byteLength_append, Nat.add_sub_cancel]
  rw [List.cons_append, scanAt, hblank, hnext]
  simp only [Bool.false_eq_true, if_false, hlength]

/-- The tokens of a text without their places. -/
def read (cs : List Char) : List Token := (scan cs).map Lexeme.token

lemma map_token_scanAt (offset : Nat) (cs : List Char) :
    (scanAt offset cs).map Lexeme.token = read cs := by
  rw [read, scan]
  suffices h : ∀ other, (scanAt offset cs).map Lexeme.token = (scanAt other cs).map Lexeme.token from h 0
  fun_induction scanAt offset cs with
  | case1 offset => intro other; rw [scanAt]
  | case2 offset c cs hblank ih =>
    intro other
    rw [scanAt_blank hblank]
    exact ih _
  | case3 offset c cs hblank stop ih =>
    intro other
    rw [scanAt, if_neg hblank, List.map_cons, List.map_cons]
    exact congrArg _ (ih _)

lemma read_nil : read [] = [] := by rw [read, scan, scanAt, List.map_nil]

lemma read_blank {c : Char} (hc : isBlank c = true) (cs : List Char) : read (c :: cs) = read cs := by
  rw [read, scan, scanAt_blank hc, map_token_scanAt]

lemma read_of_spelled (hne : t ≠ unknown) (ht : t.Named) (h : Spelled t.pieces cs)
    (hrest : t.Ends rest) : read (cs ++ rest) = t :: read rest := by
  rw [read, scan, scanAt_of_spelled hne ht h hrest, List.map_cons, map_token_scanAt]

lemma read_ofChar {c : Char} (hc : ofChar c ≠ unknown) (cs : List Char) :
    read (c :: cs) = ofChar c :: read cs := by
  obtain ⟨hblank, hnext⟩ := next_ofChar hc cs
  rw [read, scan, scanAt, hblank, hnext]
  simp only [Bool.false_eq_true, if_false, List.map_cons, map_token_scanAt]

lemma read_name {n : String} (hn : isName n.toList = true) (hrest : Stops isNameChar rest) :
    read (n.toList ++ rest) = name n :: read rest :=
  read_of_spelled (t := name n) (by simp) hn ⟨[], (List.append_nil _).symm, rfl⟩ hrest

/-- The printed text is a spelling of the token. -/
lemma spelled_print (t : Token) : Spelled t.pieces t.print.toList := by
  have hjoined : joined t.pieces = t.print.toList := by
    cases t <;> simp [joined, pieces, Piece.text, print]
  exact hjoined ▸ Spelled.joined t.pieces

/-- The text of printed tokens, each of them followed by its gap. -/
def printed (items : List (Token × List Char)) : List Char :=
  items.flatMap fun item => item.1.print.toList ++ item.2

/-- A token that has been printed behind a text, with the place of what has been printed. -/
def printedAfter (before : List Char) (t : Token) : Lexeme :=
  ⟨t, byteLength before, byteLength (before ++ t.print.toList)⟩

lemma printed_cons (t : Token) (gap : List Char) (items : List (Token × List Char)) :
    printed ((t, gap) :: items) = t.print.toList ++ (gap ++ printed items) := by
  rw [printed, List.flatMap_cons, List.append_assoc]
  rfl

lemma isNameChar_of_isBlank {c : Char} (h : isBlank c = true) : isNameChar c = false := by
  simp only [isBlank, Bool.or_eq_true, beq_iff_eq] at h
  obtain (((rfl | rfl) | rfl) | rfl) | rfl := h <;> rfl

lemma scanAt_gap {gap : List Char} (hgap : ∀ c ∈ gap, isBlank c = true) (offset : Nat) (cs : List Char) :
    scanAt offset (gap ++ cs) = scanAt (offset + byteLength gap) cs := by
  induction gap generalizing offset with
  | nil => rfl
  | cons c gap ih =>
    rw [List.forall_mem_cons] at hgap
    rw [List.cons_append, scanAt_blank hgap.1, ih hgap.2, byteLength_cons, Nat.add_assoc]

/-- Behind a token there is a blank, or nothing at all. -/
lemma stops_gap {gap : List Char} {items : List (Token × List Char)} (hgap : ∀ c ∈ gap, isBlank c = true)
    (hlast : gap = [] → items = []) : Stops isNameChar (gap ++ printed items) := by
  cases gap with
  | nil =>
    rw [hlast rfl]
    exact stops_nil isNameChar
  | cons c gap => exact stops_cons.mpr (isNameChar_of_isBlank (hgap c List.mem_cons_self))

lemma forall_mem_dropLast_cons {α : Type} {p : α → Prop} {x : α} {xs : List α} :
    (∀ y ∈ (x :: xs).dropLast, p y) ↔ (xs = [] ∨ p x) ∧ ∀ y ∈ xs.dropLast, p y := by
  cases xs with
  | nil => simp
  | cons y ys => simp

lemma scanAt_printed {items : List (Token × List Char)} (before : List Char)
    (htokens : ∀ item ∈ items, item.1 ≠ unknown ∧ item.1.Named)
    (hgaps : ∀ item ∈ items, ∀ c ∈ item.2, isBlank c = true)
    (hapart : ∀ item ∈ items.dropLast, item.2 ≠ []) :
    scanAt (byteLength before) (printed items) =
      items.mapIdx fun i item => printedAfter (before ++ printed (items.take i)) item.1 := by
  induction items generalizing before with
  | nil => rw [printed, List.flatMap_nil, scanAt, List.mapIdx_nil]
  | cons item items ih =>
    obtain ⟨t, gap⟩ := item
    obtain ⟨⟨hne, hnamed⟩, htokens⟩ := List.forall_mem_cons.mp htokens
    obtain ⟨hgap, hgaps⟩ := List.forall_mem_cons.mp hgaps
    obtain ⟨hlast, hapart⟩ := forall_mem_dropLast_cons.mp hapart
    have hstops := stops_gap hgap fun hnil => hlast.resolve_right (absurd hnil)
    -- the rest is scanned behind this token and its gap
    have hoffset : byteLength before + byteLength t.print.toList + byteLength gap =
        byteLength (before ++ (t.print.toList ++ gap)) := by
      simp only [byteLength_append, Nat.add_assoc]
    have htake (i : Nat) : before ++ printed (List.take (i + 1) ((t, gap) :: items)) =
        before ++ (t.print.toList ++ gap) ++ printed (items.take i) := by
      rw [List.take_succ_cons, printed_cons]
      simp only [List.append_assoc]
    rw [printed_cons, scanAt_of_spelled hne hnamed t.spelled_print (.of_stops hstops t),
      scanAt_gap hgap, hoffset, ih _ htokens hgaps hapart, List.mapIdx_cons]
    simp only [htake]
    rw [List.take_zero, printedAfter, printed, List.flatMap_nil, List.append_nil, byteLength_append]

/-- Printed tokens with blanks between them are scanned as these tokens, in this order and with nothing
else, each at the place of its own printed text. There may be blanks before the first and behind the
last token. -/
theorem scan_printed {lead : List Char} {items : List (Token × List Char)}
    (hlead : ∀ c ∈ lead, isBlank c = true)
    (htokens : ∀ item ∈ items, item.1 ≠ unknown ∧ item.1.Named)
    (hgaps : ∀ item ∈ items, ∀ c ∈ item.2, isBlank c = true)
    (hapart : ∀ item ∈ items.dropLast, item.2 ≠ []) :
    scan (lead ++ printed items) =
      items.mapIdx fun i item => printedAfter (lead ++ printed (items.take i)) item.1 := by
  rw [scan, scanAt_gap hlead, Nat.zero_add]
  exact scanAt_printed lead htokens hgaps hapart

/-- Digits of a number that could go on as a name, and a name that begins with such a digit. -/
theorem scan_printed_sample : scan "\t$af\x0cb_1 \n!c".toList =
    [⟨number 0xAF, 1, 4⟩, ⟨name "b_1", 5, 8⟩, ⟨symbol "c", 10, 12⟩] := by
  have hnames : isName ['b', '_', '1'] = true ∧ isName ['c'] = true := by decide
  have hlead : ∀ c ∈ ['\t'], isBlank c = true := by simp [isBlank]
  have htext : "\t$af\x0cb_1 \n!c".toList =
      ['\t'] ++ printed [(number 0xAF, ['\x0c']), (name "b_1", [' ', '\n']), (symbol "c", [])] := by
    decide +kernel
  rw [htext, scan_printed hlead (by simpa [Named] using hnames) (by simp [isBlank]) (by simp)]
  decide +kernel

end Token
end Machine16
