import Machine16.Proofs.Tokens

/-! Printed expressions are read back. Every operation stands in parentheses, so that its tokens group
in one way only, whatever the precedence of the operators is. -/
namespace Machine16

namespace Expression

/-- The names in an expression are names. -/
def WellFormed : Expression → Prop
  | literal _ => True
  | symbol n => isName n.toList = true
  | member s n m => isName s.toList = true ∧ isName n.toList = true ∧ isName m.toList = true
  | binary _ l r => l.WellFormed ∧ r.WellFormed

def pieces : Expression → List Piece
  | literal v => [.exact "$", .word (Hex.format 1 v.toNat)]
  | symbol n => [.exact "!", .exact n]
  | member s n m => [.exact "<", .exact s, .exact ">", .exact " ", .exact n, .exact ".", .exact m]
  | binary op l r =>
    .exact "(" :: (l.pieces ++ .exact " " :: .exact op.symbol :: .exact " " :: (r.pieces ++ [.exact ")"]))

lemma joined_pieces (e : Expression) : joined e.pieces = e.print.toList := by
  induction e with
  | literal v | symbol n | member s n m => simp [joined, pieces, Piece.text, print]
  | binary op l r ihl ihr =>
    simp only [joined] at ihl ihr
    simp [joined, pieces, Piece.text, print, ihl, ihr]

def tokens : Expression → List Token
  | literal v => [.number v]
  | symbol n => [.symbol n]
  | member s n m => [.less, .name s, .greater, .name n, .dot, .name m]
  | binary op l r => .openParen :: (l.tokens ++ .operator op :: (r.tokens ++ [.closeParen]))

/-- A spelled expression is scanned as its tokens. -/
lemma read_of_spelled {e : Expression} (he : e.WellFormed) {cs rest : List Char}
    (h : Spelled e.pieces cs) (hrest : Stops isNameChar rest) :
    Token.read (cs ++ rest) = e.tokens ++ Token.read rest := by
  induction e generalizing cs rest with
  | literal v => exact Token.read_of_spelled (t := .number v) (by simp) trivial h (.of_stops hrest _)
  | symbol n => exact Token.read_of_spelled (t := .symbol n) (by simp) he h hrest
  | member s n m =>
    obtain ⟨hs, hn, hm⟩ := he
    obtain ⟨_, rfl, _, rfl, _, rfl, _, rfl, _, rfl, _, rfl, _, rfl, rfl⟩ := h
    have htext : "<".toList ++ (s.toList ++ (">".toList ++ (" ".toList ++ (n.toList ++
        (".".toList ++ (m.toList ++ [])))))) ++ rest =
          '<' :: (s.toList ++ '>' :: ' ' :: (n.toList ++ '.' :: (m.toList ++ rest))) := by simp
    rw [htext, Token.read_ofChar (by decide), Token.read_name hs (stops_cons.mpr rfl),
      Token.read_ofChar (by decide), Token.read_blank rfl, Token.read_name hn (stops_cons.mpr rfl),
      Token.read_ofChar (by decide), Token.read_name hm hrest]
    rfl
  | binary op l r ihl ihr =>
    obtain ⟨_, rfl, h⟩ := h
    obtain ⟨as, _, rfl, has, _, rfl, _, rfl, _, rfl, h'⟩ := Spelled.append_iff.mp h
    obtain ⟨bs, _, rfl, hbs, _, rfl, rfl⟩ := Spelled.append_iff.mp h'
    have hop (cs : List Char) : Token.read (op.symbol.toList ++ cs) = .operator op :: Token.read cs :=
      Token.read_of_spelled (t := .operator op) (by simp) trivial ⟨[], (List.append_nil _).symm, rfl⟩ trivial
    have htext : "(".toList ++ (as ++ (" ".toList ++ (op.symbol.toList ++ (" ".toList ++
        (bs ++ (")".toList ++ [])))))) ++ rest =
          '(' :: (as ++ ' ' :: (op.symbol.toList ++ ' ' :: (bs ++ ')' :: rest))) := by simp
    rw [htext, Token.read_ofChar (by decide), ihl he.1 has (stops_cons.mpr rfl), Token.read_blank rfl, hop,
      Token.read_blank rfl, ihr he.2 hbs (stops_cons.mpr rfl), Token.read_ofChar (by decide)]
    simp [tokens, Token.ofChar]

end Expression

namespace Grouping

variable {st st' : State} {e : Expression}

lemma readFrom_of_foldlM {stop : Nat} {ls : List Lexeme}
    (h : (ls.map Lexeme.token).foldlM step st = .ok st') (hfinish : finish st' = .ok e) :
    readFrom st stop ls = .ok e := by
  induction ls generalizing st with
  | nil =>
    cases h
    rw [readFrom, hfinish]
  | cons l ls ih =>
    rw [List.map_cons, List.foldlM_cons] at h
    rw [readFrom]
    cases hstep : step st l.token with
    | error p =>
      rw [hstep] at h
      cases h
    | ok st1 =>
      rw [hstep] at h
      exact ih h

/-- The tokens of an expression stand for it wherever a value may stand. -/
lemma foldlM_tokens (e : Expression) (fs : List Frame) :
    e.tokens.foldlM step (.value fs) = .ok (.rest fs e) := by
  induction e generalizing fs with
  | literal v | symbol n | member s n m => rfl
  | binary op l r ihl ihr =>
    rw [Expression.tokens, List.foldlM_cons]
    change (l.tokens ++ Token.operator op :: (r.tokens ++ [Token.closeParen])).foldlM step
      (.value (.group :: fs)) = _
    rw [List.foldlM_append, ihl]
    change (r.tokens ++ [Token.closeParen]).foldlM step (.value (.operation l op :: .group :: fs)) = _
    rw [List.foldlM_append, ihr]
    rfl

end Grouping

lemma Expression.parse_of_spelled {e : Expression} (he : e.WellFormed) {cs : List Char}
    (h : Spelled e.pieces cs) : Expression.parse cs = .ok e := by
  have htokens : (Token.scan cs).map Lexeme.token = e.tokens := by
    have hread := read_of_spelled he h (stops_nil _)
    rwa [List.append_nil, Token.read_nil, List.append_nil] at hread
  have hgrouped := Grouping.foldlM_tokens e []
  rw [← htokens] at hgrouped
  exact Grouping.readFrom_of_foldlM hgrouped rfl

/-- The bracket that closes an expression is not one of its own characters. -/
lemma Expression.bracket_not_mem {e : Expression} (he : e.WellFormed) {cs : List Char}
    (h : Spelled e.pieces cs) : ']' ∉ cs := by
  have hname {c : Char} (hc : isNameChar c = true) : c.toLower ≠ ']' := by
    intro heq
    rw [← isNameChar_toLower, heq] at hc
    cases hc
  have hall : ∀ c ∈ joined e.pieces, c.toLower ≠ ']' := by
    clear h
    induction e with
    | literal v =>
      intro c hc
      obtain rfl | hc : c = '$' ∨ c ∈ Hex.digits 1 v.toNat := by
        simpa [joined, pieces, Piece.text] using hc
      · decide
      · exact hname (Hex.isNameChar_of_isDigit (Hex.isDigit_of_mem_digits hc))
    | symbol n =>
      intro c hc
      obtain rfl | hc : c = '!' ∨ c ∈ n.toList := by simpa [joined, pieces, Piece.text] using hc
      · decide
      · exact hname (Grammar.isNameChar_of_isName he c hc)
    | member s n m =>
      obtain ⟨hs, hn, hm⟩ := he
      intro c hc
      obtain rfl | hc | rfl | rfl | hc | rfl | hc :
          c = '<' ∨ c ∈ s.toList ∨ c = '>' ∨ c = ' ' ∨ c ∈ n.toList ∨ c = '.' ∨ c ∈ m.toList := by
        simpa [joined, pieces, Piece.text] using hc
      · decide
      · exact hname (Grammar.isNameChar_of_isName hs c hc)
      · decide
      · decide
      · exact hname (Grammar.isNameChar_of_isName hn c hc)
      · decide
      · exact hname (Grammar.isNameChar_of_isName hm c hc)
    | binary op l r ihl ihr =>
      have hop : ']' ∉ lowerCase op.symbol.toList := by cases op <;> decide
      intro c hc
      obtain rfl | hc | rfl | hc | rfl | hc | rfl :
          c = '(' ∨ c ∈ joined l.pieces ∨ c = ' ' ∨ c ∈ op.symbol.toList ∨ c = ' ' ∨
            c ∈ joined r.pieces ∨ c = ')' := by
        simpa [joined, pieces, Piece.text] using hc
      · decide
      · exact ihl he.1 c hc
      · decide
      · exact fun heq => hop (heq ▸ List.mem_map_of_mem hc)
      · decide
      · exact ihr he.2 c hc
      · decide
  intro hmem
  have hlower : ']' ∈ lowerCase (joined e.pieces) := h.lowerCase_eq ▸ List.mem_map_of_mem hmem
  obtain ⟨c, hc, heq⟩ := List.mem_map.mp hlower
  exact hall c hc heq

section Names

lemma Token.named_next (c : Char) (cs : List Char) : (next c cs).1.Named := by
  have hname {d : Char} (hd : isNameStart d = true) (ds : List Char) :
      isName (String.ofList (d :: ds.takeWhile isNameChar)).toList = true := by
    rw [String.toList_ofList, isName, hd, Bool.true_and, List.all_eq_true]
    exact fun c hc => List.mem_takeWhile_imp hc
  unfold next
  split
  · split
    · trivial
    · unfold ofDigits
      split <;> trivial
  · split
    · split
      · split
        · exact hname (by assumption) _
        · trivial
      · trivial
    · split
      · exact hname (by assumption) _
      · unfold ofChar
        split <;> trivial

lemma Token.named_of_mem_scanAt {offset : Nat} {cs : List Char} :
    ∀ l ∈ scanAt offset cs, l.token.Named := by
  fun_induction scanAt offset cs with
  | case1 => exact fun _ h => absurd h List.not_mem_nil
  | case2 offset c cs _ ih => exact ih
  | case3 offset c cs _ stop ih => exact List.forall_mem_cons.mpr ⟨named_next c cs, ih⟩

namespace Grouping

def Frame.WellFormed : Frame → Prop
  | group => True
  | operation l _ => l.WellFormed

/-- All names that have been read so far are names. -/
def State.WellFormed : State → Prop
  | value fs | struct fs => ∀ f ∈ fs, f.WellFormed
  | structEnd fs s | symbol fs s => (∀ f ∈ fs, f.WellFormed) ∧ isName s.toList = true
  | dot fs s n | member fs s n =>
    (∀ f ∈ fs, f.WellFormed) ∧ isName s.toList = true ∧ isName n.toList = true
  | rest fs e => (∀ f ∈ fs, f.WellFormed) ∧ e.WellFormed

variable {fs : List Frame} {e : Expression}

lemma wellFormed_reduce (precedence : Nat) (hfs : ∀ f ∈ fs, f.WellFormed) (he : e.WellFormed) :
    (∀ f ∈ (reduce precedence fs e).1, f.WellFormed) ∧ (reduce precedence fs e).2.WellFormed := by
  fun_induction reduce precedence fs e with
  | case1 e left op fs hprecedence ih =>
    rw [List.forall_mem_cons] at hfs
    exact ih hfs.2 ⟨hfs.1, he⟩
  | case2 e left op fs hprecedence => exact ⟨hfs, he⟩
  | case3 fs e hfs' => exact ⟨hfs, he⟩

lemma step_operator (op : Operator) : step (.rest fs e) (.operator op) =
    .ok (.value (.operation (reduce op.precedence fs e).2 op :: (reduce op.precedence fs e).1)) := rfl

lemma step_rest {t : Token} (ht : ∀ op, t ≠ .operator op) : step (.rest fs e) t =
    match reduce 0 fs e with
    | (.group :: fs, e) => if t = .closeParen then .ok (.rest fs e) else .error .missingParen
    | _ => .error (if t = .unknown then .unexpectedCharacter else .unexpectedToken) := by
  cases t with
  | operator op => exact absurd rfl (ht op)
  | _ => rfl

/-- After a value only an operator goes on, and only a parenthesis that has been opened can close. -/
lemma step_rest_eq_ok {st' : State} {t : Token} (h : step (.rest fs e) t = .ok st') :
    (∃ op, t = .operator op ∧
      st' = .value (.operation (reduce op.precedence fs e).2 op :: (reduce op.precedence fs e).1)) ∨
    t = .closeParen ∧ ∃ fs' e', reduce 0 fs e = (.group :: fs', e') ∧ st' = .rest fs' e' := by
  by_cases ht : ∃ op, t = .operator op
  · obtain ⟨op, rfl⟩ := ht
    cases h
    exact .inl ⟨op, rfl, rfl⟩
  · rw [step_rest (not_exists.mp ht)] at h
    split at h
    · rename_i fs' e' hreduce
      split_ifs at h with hclose
      cases h
      exact .inr ⟨hclose, fs', e', hreduce, rfl⟩
    · cases h

lemma wellFormed_step {st st' : State} {t : Token} (hst : st.WellFormed) (ht : t.Named)
    (h : step st t = .ok st') : st'.WellFormed := by
  cases st with
  | value fs =>
    cases t with
    | number v => cases h; exact ⟨hst, trivial⟩
    | symbol n => cases h; exact ⟨hst, ht⟩
    | openParen => cases h; exact List.forall_mem_cons.mpr ⟨trivial, hst⟩
    | less => cases h; exact hst
    | _ => cases h
  | struct fs =>
    cases t with
    | name s => cases h; exact ⟨hst, ht⟩
    | _ => cases h
  | structEnd fs s =>
    cases t with
    | greater => cases h; exact hst
    | _ => cases h
  | symbol fs s =>
    cases t with
    | name n => cases h; exact ⟨hst.1, hst.2, ht⟩
    | _ => cases h
  | dot fs s n =>
    cases t with
    | dot => cases h; exact hst
    | _ => cases h
  | member fs s n =>
    cases t with
    | name m => cases h; exact ⟨hst.1, hst.2.1, hst.2.2, ht⟩
    | _ => cases h
  | rest fs e =>
    have hreduce (precedence : Nat) := wellFormed_reduce precedence hst.1 hst.2
    obtain ⟨op, -, rfl⟩ | ⟨-, fs', e', heq, rfl⟩ := step_rest_eq_ok h
    · exact List.forall_mem_cons.mpr ⟨(hreduce _).2, (hreduce _).1⟩
    · have hclosed := hreduce 0
      rw [heq, List.forall_mem_cons] at hclosed
      exact ⟨hclosed.1.2, hclosed.2⟩

lemma wellFormed_readFrom {st : State} {stop : Nat} {ls : List Lexeme} (hst : st.WellFormed)
    (hls : ∀ l ∈ ls, l.token.Named) (h : readFrom st stop ls = .ok e) : e.WellFormed := by
  induction ls generalizing st with
  | nil =>
    rw [readFrom] at h
    cases st with
    | rest fs e' =>
      have hreduce := wellFormed_reduce 0 hst.1 hst.2
      rw [finish] at h
      split at h
      · rename_i hfinish
        split at hfinish
        · rename_i heq
          rw [heq] at hreduce
          cases hfinish
          cases h
          exact hreduce.2
        · cases hfinish
      · cases h
    | _ => cases h
  | cons l ls ih =>
    rw [List.forall_mem_cons] at hls
    rw [readFrom] at h
    cases hstep : step st l.token with
    | error p =>
      rw [hstep] at h
      cases h
    | ok st' =>
      rw [hstep] at h
      exact ih (wellFormed_step hst hls.1 hstep) hls.2 h

end Grouping

lemma Expression.wellFormed_of_parse {cs : List Char} {e : Expression}
    (h : Expression.parse cs = .ok e) : e.WellFormed := by
  have hstart : (Grouping.State.value []).WellFormed := fun _ h => absurd h List.not_mem_nil
  exact Grouping.wellFormed_readFrom hstart Token.named_of_mem_scanAt h

end Names
end Machine16
