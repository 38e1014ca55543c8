import Machine16.Proofs.Expressions
import Machine16.Proofs.Spans

/-! What an expression is, as a grammar, and what reading makes of it. The tokens are read from left to
right without looking ahead, and still all that is grouped is grouped as the grammar says; where reading
stops, no expression begins with the tokens up to there. -/
namespace Machine16

namespace Grouping

/-- The operators of each level of the grammar, the loosest first. -/
def operatorsAt : Nat → List Operator
  | 1 => [.and, .or, .xor]
  | 2 => [.add, .subtract]
  | 3 => [.multiply, .divide]
  | _ => []

/-- The tokens are an expression of the level and stand for `e`. Operators of one level group to the left:
their right operand is of a tighter level. The values are the tightest level. -/
inductive Groups : Nat → List Token → Expression → Prop
  | literal {v} : Groups 4 [.number v] (.literal v)
  | symbol {n} : Groups 4 [.symbol n] (.symbol n)
  | member {s n m} : Groups 4 [.less, .name s, .greater, .name n, .dot, .name m] (.member s n m)
  | parens {ts e} (inner : Groups 1 ts e) : Groups 4 (.openParen :: (ts ++ [.closeParen])) e
  | tighter {level ts e} (h : Groups (level + 1) ts e) : Groups level ts e
  | operation {level op ls l rs r} (mem : op ∈ operatorsAt level) (left : Groups level ls l)
      (right : Groups (level + 1) rs r) : Groups level (ls ++ .operator op :: rs) (.binary op l r)

/-- Some expression begins with the tokens. -/
def Viable (ts : List Token) : Prop := ∃ rest e, Groups 1 (ts ++ rest) e

/-- The place of the first token that no expression goes on with, or of the end of a text where an expression
has begun and is not complete. -/
inductive FaultAt (text : List Char) : Nat → Prop
  | token {before l after} (split : Token.scan text = before ++ l :: after)
      (viable : Viable (before.map Lexeme.token)) (stuck : ¬ Viable ((before ++ [l]).map Lexeme.token)) :
      FaultAt text l.span.start
  | stop (viable : Viable (Token.read text)) (incomplete : ∀ e, ¬ Groups 1 (Token.read text) e) :
      FaultAt text (byteLength text)

/-- The level of what may stand behind the frames. -/
def need : List Frame → Nat
  | .operation _ op :: _ => op.precedence + 1
  | _ => 1

/-- The frames are what the tokens have begun. Behind an operand and its operator an operand of a tighter level
is waited for, so that the operand itself is where one of its own level may stand. -/
inductive Begun : List Frame → List Token → Prop
  | nil : Begun [] []
  | group {fs ts} (tail : Begun fs ts) : Begun (.group :: fs) (ts ++ [.openParen])
  | operation {fs ts ls l} {op : Operator} (tail : Begun fs ts) (fits : need fs ≤ op.precedence)
      (left : Groups op.precedence ls l) : Begun (.operation l op :: fs) (ts ++ (ls ++ [.operator op]))

/-- The tokens that lead to a state. -/
def State.Read : State → List Token → Prop
  | value fs, ts => Begun fs ts
  | struct fs, ts => ∃ before, Begun fs before ∧ ts = before ++ [.less]
  | structEnd fs s, ts => ∃ before, Begun fs before ∧ ts = before ++ [.less, .name s]
  | symbol fs s, ts => ∃ before, Begun fs before ∧ ts = before ++ [.less, .name s, .greater]
  | dot fs s n, ts => ∃ before, Begun fs before ∧ ts = before ++ [.less, .name s, .greater, .name n]
  | member fs s n, ts =>
    ∃ before, Begun fs before ∧ ts = before ++ [.less, .name s, .greater, .name n, .dot]
  | rest fs e, ts => ∃ before own, Begun fs before ∧ Groups 4 own e ∧ ts = before ++ own

variable {ts own before : List Token} {e : Expression} {op : Operator} {level : Nat} {fs : List Frame}
  {st st' : State} {t : Token}

lemma mem_operatorsAt : op ∈ operatorsAt level ↔ op.precedence = level := by
  constructor
  · intro h
    unfold operatorsAt at h
    split at h <;> cases op <;> simp_all [Operator.precedence]
  · rintro rfl
    cases op <;> simp [operatorsAt, Operator.precedence]

lemma precedence_pos (op : Operator) : 1 ≤ op.precedence := by cases op <;> decide

lemma precedence_lt (op : Operator) : op.precedence < 4 := by cases op <;> decide

lemma Groups.mono (h : Groups level ts e) {looser : Nat} (hle : looser ≤ level) : Groups looser ts e := by
  induction hle using Nat.decreasingInduction with
  | self => exact h
  | of_succ _ _ ih => exact .tighter ih

lemma foldlM_cons_eq_ok : (t :: ts).foldlM step st = .ok st' ↔
    ∃ mid, step st t = .ok mid ∧ ts.foldlM step mid = .ok st' := by
  rw [List.foldlM_cons]
  cases step st t <;> simp [bind, Except.bind]

lemma foldlM_append_eq_ok {us : List Token} : (ts ++ us).foldlM step st = .ok st' ↔
    ∃ mid, ts.foldlM step st = .ok mid ∧ us.foldlM step mid = .ok st' := by
  rw [List.foldlM_append]
  cases ts.foldlM step st <;> simp [bind, Except.bind]

section Reduce

lemma need_le (fs : List Frame) : need fs ≤ 4 := by
  unfold need
  split
  · exact precedence_lt _
  · decide

/-- Operations that are looser than what is asked for are left open. -/
lemma need_reduce (precedence : Nat) (fs : List Frame) (e : Expression) :
    need (reduce precedence fs e).1 ≤ max 1 precedence := by
  fun_induction reduce precedence fs e with
  | case1 e left op fs hle ih => exact ih
  | case2 e left op fs hle =>
    rw [need]
    omega
  | case3 fs e hfs =>
    unfold need
    split
    · exact (hfs _ _ _ ‹_›).elim
    · exact Nat.le_max_left 1 _

lemma reduce_of_need_le {precedence : Nat} (h : need fs ≤ precedence) (e : Expression) :
    reduce precedence fs e = (fs, e) := by
  cases fs with
  | nil => rfl
  | cons f fs =>
    cases f with
    | group => rfl
    | operation left op =>
      rw [need] at h
      rw [reduce, if_neg (by omega)]

/-- Operations that are finished are grouped as the grammar says. -/
lemma exists_groups_reduce {precedence : Nat} (hbegun : Begun fs before) (hown : Groups level own e)
    (hneed : need fs ≤ level) (hprecedence : precedence ≤ level) :
    ∃ before' own', Begun (reduce precedence fs e).1 before' ∧
      (∃ level', precedence ≤ level' ∧ need (reduce precedence fs e).1 ≤ level' ∧
        Groups level' own' (reduce precedence fs e).2) ∧ before ++ own = before' ++ own' := by
  fun_induction reduce precedence fs e generalizing before own level with
  | case1 left op fs e hle ih =>
    cases hbegun with
    | @operation _ ts ls _ _ tail fits hleft =>
      have hright : Groups (op.precedence + 1) own e := hown.mono hneed
      obtain ⟨before', own', hbegun', hgroups, heq⟩ :=
        ih tail (.operation (mem_operatorsAt.mpr rfl) hleft hright) fits hle
      refine ⟨before', own', hbegun', hgroups, ?_⟩
      rw [← heq]
      simp
  | case2 left op fs e hle => exact ⟨before, own, hbegun, ⟨level, hprecedence, hneed, hown⟩, rfl⟩
  | case3 fs e hfs => exact ⟨before, own, hbegun, ⟨level, hprecedence, hneed, hown⟩, rfl⟩

end Reduce

section Soundness

/-- One more token is one more token of what has been read. -/
lemma State.Read.step (hst : st.Read ts) (h : step st t = .ok st') : st'.Read (ts ++ [t]) := by
  cases st with
  | value fs =>
    cases t with
    | number v => cases h; exact ⟨ts, _, hst, .literal, rfl⟩
    | symbol n => cases h; exact ⟨ts, _, hst, .symbol, rfl⟩
    | openParen => cases h; exact .group hst
    | less => cases h; exact ⟨ts, hst, rfl⟩
    | _ => cases h
  | struct fs =>
    obtain ⟨before, hbegun, rfl⟩ := hst
    cases t with
    | name s => cases h; exact ⟨before, hbegun, List.append_assoc ..⟩
    | _ => cases h
  | structEnd fs s =>
    obtain ⟨before, hbegun, rfl⟩ := hst
    cases t with
    | greater => cases h; exact ⟨before, hbegun, List.append_assoc ..⟩
    | _ => cases h
  | symbol fs s =>
    obtain ⟨before, hbegun, rfl⟩ := hst
    cases t with
    | name n => cases h; exact ⟨before, hbegun, List.append_assoc ..⟩
    | _ => cases h
  | dot fs s n =>
    obtain ⟨before, hbegun, rfl⟩ := hst
    cases t with
    | dot => cases h; exact ⟨before, hbegun, List.append_assoc ..⟩
    | _ => cases h
  | member fs s n =>
    obtain ⟨before, hbegun, rfl⟩ := hst
    cases t with
    | name m => cases h; exact ⟨before, _, hbegun, .member, List.append_assoc ..⟩
    | _ => cases h
  | rest fs e =>
    obtain ⟨before, own, hbegun, hown, rfl⟩ := hst
    obtain ⟨op, rfl, rfl⟩ | ⟨rfl, fs', e', hreduce, rfl⟩ := step_rest_eq_ok h
    · obtain ⟨before', own', hbegun', ⟨level, hle, -, hgroups⟩, heq⟩ :=
        exists_groups_reduce hbegun hown (need_le fs) (precedence_lt op).le
      have hneed := need_reduce op.precedence fs e
      rw [max_eq_right (precedence_pos op)] at hneed
      rw [heq, List.append_assoc]
      exact .operation hbegun' hneed (hgroups.mono hle)
    · obtain ⟨before', own', hbegun', ⟨level, -, hneed, hgroups⟩, heq⟩ :=
        exists_groups_reduce hbegun hown (need_le fs) (Nat.zero_le 4)
      simp only [hreduce] at hbegun' hgroups hneed
      rw [heq]
      cases hbegun' with
      | @group _ outer tail =>
        refine ⟨outer, .openParen :: (own' ++ [.closeParen]), tail, .parens (hgroups.mono hneed), ?_⟩
        simp

lemma State.Read.foldlM (hst : st.Read before) (h : ts.foldlM Grouping.step st = .ok st') :
    st'.Read (before ++ ts) := by
  induction ts generalizing st before with
  | nil =>
    cases h
    rwa [List.append_nil]
  | cons t ts ih =>
    obtain ⟨mid, hstep, h⟩ := foldlM_cons_eq_ok.mp h
    rw [List.append_cons]
    exact ih (hst.step hstep) h

lemma finish_rest_eq_ok {e' : Expression} : finish (.rest fs e') = .ok e ↔ reduce 0 fs e' = ([], e) := by
  rw [finish]
  split <;> simp_all

lemma State.Read.finish (hst : st.Read ts) (h : finish st = .ok e) : Groups 1 ts e := by
  cases st with
  | rest fs e' =>
    obtain ⟨before, own, hbegun, hown, rfl⟩ := hst
    obtain ⟨before', own', hbegun', ⟨level, -, hneed, hgroups⟩, heq⟩ :=
      exists_groups_reduce hbegun hown (need_le fs) (Nat.zero_le 4)
    simp only [finish_rest_eq_ok.mp h] at hbegun' hgroups hneed
    cases hbegun'
    rw [heq]
    exact hgroups.mono hneed
  | _ => cases h

/-- Whatever has begun can be completed. -/
lemma Begun.exists_closing (h : Begun fs before) : ∃ closing, ∀ own e, Groups (need fs) own e →
    ∃ e', Groups 1 (before ++ (own ++ closing)) e' := by
  induction h with
  | nil => exact ⟨[], fun own e hown => ⟨e, by simpa [need] using hown⟩⟩
  | @group fs ts tail ih =>
    obtain ⟨closing, hclosing⟩ := ih
    refine ⟨.closeParen :: closing, fun own e hown => ?_⟩
    obtain ⟨e', he'⟩ := hclosing _ e ((Groups.parens hown).mono (need_le fs))
    exact ⟨e', by simpa using he'⟩
  | @operation fs ts ls l op tail fits left ih =>
    obtain ⟨closing, hclosing⟩ := ih
    refine ⟨closing, fun own e hown => ?_⟩
    obtain ⟨e', he'⟩ := hclosing _ _ ((Groups.operation (mem_operatorsAt.mpr rfl) left hown).mono fits)
    exact ⟨e', by simpa using he'⟩

lemma State.Read.viable (h : st.Read ts) : Viable ts := by
  have hvalue {fs : List Frame} {before : List Token} {e : Expression} (hbegun : Begun fs before)
      (own rest : List Token) (hown : Groups 4 (own ++ rest) e) : Viable (before ++ own) := by
    obtain ⟨closing, hclosing⟩ := hbegun.exists_closing
    obtain ⟨e', he'⟩ := hclosing _ e (hown.mono (need_le fs))
    exact ⟨rest ++ closing, e', by simpa using he'⟩
  cases st with
  | value fs =>
    have hnumber := hvalue h [] [.number 0] .literal
    rwa [List.append_nil] at hnumber
  | struct fs =>
    obtain ⟨before, hbegun, rfl⟩ := h
    exact hvalue hbegun [.less] [.name "s", .greater, .name "n", .dot, .name "m"] .member
  | structEnd fs s =>
    obtain ⟨before, hbegun, rfl⟩ := h
    exact hvalue hbegun [.less, .name s] [.greater, .name "n", .dot, .name "m"] .member
  | symbol fs s =>
    obtain ⟨before, hbegun, rfl⟩ := h
    exact hvalue hbegun [.less, .name s, .greater] [.name "n", .dot, .name "m"] .member
  | dot fs s n =>
    obtain ⟨before, hbegun, rfl⟩ := h
    exact hvalue hbegun [.less, .name s, .greater, .name n] [.dot, .name "m"] .member
  | member fs s n =>
    obtain ⟨before, hbegun, rfl⟩ := h
    exact hvalue hbegun [.less, .name s, .greater, .name n, .dot] [.name "m"] .member
  | rest fs e =>
    obtain ⟨before, own, hbegun, hown, rfl⟩ := h
    exact hvalue hbegun own [] (by rwa [List.append_nil])

end Soundness

section Completeness

/-- Where an expression may stand its tokens are read, and what they leave open is finished as the expression. -/
lemma Groups.foldlM (h : Groups level ts e) (hneed : need fs ≤ level) : ∃ fs' e',
    ts.foldlM step (.value fs) = .ok (.rest fs' e') ∧
      ∀ precedence ≤ level, reduce precedence fs' e' = reduce precedence fs e := by
  induction h generalizing fs with
  | literal | symbol | member => exact ⟨fs, _, rfl, fun _ _ => rfl⟩
  | @parens ts e inner ih =>
    have hinner : need (.group :: fs) ≤ 1 := Nat.le_refl 1
    obtain ⟨fs', e', hread, hreduce⟩ := ih hinner
    refine ⟨fs, e, ?_, fun _ _ => rfl⟩
    have hclose : step (.rest fs' e') .closeParen = .ok (.rest fs e) := by
      rw [step_rest (by simp), hreduce 0 (Nat.zero_le 1)]
      rfl
    change (ts ++ [Token.closeParen]).foldlM step (.value (.group :: fs)) = _
    exact foldlM_append_eq_ok.mpr ⟨_, hread, foldlM_cons_eq_ok.mpr ⟨_, hclose, rfl⟩⟩
  | tighter h ih =>
    obtain ⟨fs', e', hread, hreduce⟩ := ih (Nat.le_succ_of_le hneed)
    exact ⟨fs', e', hread, fun precedence hle => hreduce precedence (Nat.le_succ_of_le hle)⟩
  | @operation level op ls l rs r mem left right ihl ihr =>
    obtain rfl := mem_operatorsAt.mp mem
    obtain ⟨fs₁, e₁, hread₁, hreduce₁⟩ := ihl hneed
    have hright : need (.operation l op :: fs) ≤ op.precedence + 1 := Nat.le_refl _
    obtain ⟨fs₂, e₂, hread₂, hreduce₂⟩ := ihr hright
    refine ⟨fs₂, e₂, ?_, fun precedence hle => ?_⟩
    · have hshift : step (.rest fs₁ e₁) (.operator op) = .ok (.value (.operation l op :: fs)) := by
        rw [step_operator, hreduce₁ _ (Nat.le_refl _), reduce_of_need_le hneed]
      exact foldlM_append_eq_ok.mpr ⟨_, hread₁, foldlM_cons_eq_ok.mpr ⟨_, hshift, hread₂⟩⟩
    · rw [hreduce₂ precedence (Nat.le_succ_of_le hle), reduce, if_pos hle]

end Completeness

/-- A whole expression is read from the start. -/
lemma Groups.exists_finish (h : Groups 1 ts e) :
    ∃ st, ts.foldlM step (.value []) = .ok st ∧ finish st = .ok e := by
  have hstart : need [] ≤ 1 := Nat.le_refl 1
  obtain ⟨fs, e', hread, hreduce⟩ := h.foldlM hstart
  exact ⟨_, hread, finish_rest_eq_ok.mpr (hreduce 0 (Nat.zero_le 1))⟩

/-- The tokens are read to their end exactly if an expression begins with them. -/
lemma viable_iff : Viable ts ↔ ∃ st, ts.foldlM step (.value []) = .ok st := by
  constructor
  · rintro ⟨rest, e, h⟩
    obtain ⟨_, hread, -⟩ := h.exists_finish
    obtain ⟨st, hst, -⟩ := foldlM_append_eq_ok.mp hread
    exact ⟨st, hst⟩
  · rintro ⟨st, h⟩
    have hread : State.Read (.value []) [] := .nil
    exact (hread.foldlM h).viable

lemma groups_iff : Groups 1 ts e ↔ ∃ st, ts.foldlM step (.value []) = .ok st ∧ finish st = .ok e := by
  constructor
  · exact Groups.exists_finish
  · rintro ⟨st, h, hfinish⟩
    have hread : State.Read (.value []) [] := .nil
    exact (hread.foldlM h).finish hfinish

/-- The grammar is unambiguous. -/
lemma Groups.unique {e' : Expression} (h : Groups 1 ts e) (h' : Groups 1 ts e') : e = e' := by
  obtain ⟨st, hst, he⟩ := groups_iff.mp h
  obtain ⟨st', hst', he'⟩ := groups_iff.mp h'
  cases hst.symm.trans hst'
  cases he.symm.trans he'
  rfl

section Faults

variable {stop : Nat} {ls : List Lexeme}

lemma readFrom_append {before : List Lexeme} (h : (before.map Lexeme.token).foldlM step st = .ok st') :
    readFrom st stop (before ++ ls) = readFrom st' stop ls := by
  induction before generalizing st with
  | nil =>
    cases h
    rfl
  | cons l before ih =>
    obtain ⟨mid, hstep, h⟩ := foldlM_cons_eq_ok.mp h
    rw [List.cons_append, readFrom, hstep]
    exact ih h

/-- The tokens can be read to their end, or there is a first one that cannot. -/
lemma read_or_stuck (st : State) (ls : List Lexeme) :
    (∃ st', (ls.map Lexeme.token).foldlM step st = .ok st') ∨ ∃ before l after st' problem,
      ls = before ++ l :: after ∧ (before.map Lexeme.token).foldlM step st = .ok st' ∧
      step st' l.token = .error problem := by
  induction ls generalizing st with
  | nil => exact .inl ⟨st, rfl⟩
  | cons l ls ih =>
    cases hstep : step st l.token with
    | error p => exact .inr ⟨[], l, ls, st, p, rfl, rfl, hstep⟩
    | ok mid =>
      obtain ⟨st', hread⟩ | ⟨before, l', after, st', p, rfl, hread, hstuck⟩ := ih mid
      · exact .inl ⟨st', foldlM_cons_eq_ok.mpr ⟨mid, hstep, hread⟩⟩
      · exact .inr ⟨l :: before, l', after, st', p, rfl, foldlM_cons_eq_ok.mpr ⟨mid, hstep, hread⟩, hstuck⟩

lemma not_viable_of_stuck {problem : Problem} (h : ts.foldlM step (.value []) = .ok st)
    (hstuck : step st t = .error problem) : ¬ Viable (ts ++ [t]) := by
  rw [viable_iff]
  rintro ⟨st', hread⟩
  obtain ⟨mid, hmid, hread⟩ := foldlM_append_eq_ok.mp hread
  cases h.symm.trans hmid
  obtain ⟨_, hstep, -⟩ := foldlM_cons_eq_ok.mp hread
  cases hstuck.symm.trans hstep

end Faults

end Grouping

section Texts

open Grouping

variable {text : List Char} {offset : Nat}

lemma Expression.parse_of_foldlM {st : State} (h : (Token.read text).foldlM step (.value []) = .ok st) :
    Expression.parse text = (finish st).mapError fun problem => (byteLength text, problem) := by
  have hread : readFrom (.value []) (byteLength text) (Token.scan text ++ []) = readFrom st (byteLength text) [] :=
    readFrom_append h
  rw [List.append_nil] at hread
  rw [Expression.parse, hread, readFrom]
  cases finish st <;> rfl

lemma Expression.parse_of_stuck {before after : List Lexeme} {l : Lexeme} {st : State} {problem : Problem}
    (hsplit : Token.scan text = before ++ l :: after)
    (h : (before.map Lexeme.token).foldlM step (.value []) = .ok st)
    (hstuck : step st l.token = .error problem) :
    Expression.parse text = .error (l.span.start, problem) := by
  rw [Expression.parse, hsplit, readFrom_append h, readFrom, hstuck]

lemma Expression.parse_eq_ok {e : Expression} : Expression.parse text = .ok e ↔ Groups 1 (Token.read text) e := by
  rw [groups_iff]
  obtain ⟨st, hst⟩ | ⟨before, l, after, st, problem, hsplit, hst, hstuck⟩ :=
    read_or_stuck (.value []) (Token.scan text)
  · rw [Expression.parse_of_foldlM hst]
    constructor
    · intro h
      refine ⟨st, hst, ?_⟩
      cases hfinish : finish st <;> rw [hfinish] at h <;> cases h
      rfl
    · rintro ⟨st', hst', hfinish⟩
      cases hst.symm.trans hst'
      rw [hfinish]
      rfl
  · rw [Expression.parse_of_stuck hsplit hst hstuck, ← groups_iff]
    constructor
    · intro h
      cases h
    · intro h
      refine absurd ⟨after.map Lexeme.token, e, ?_⟩ (not_viable_of_stuck hst hstuck)
      have hread : Token.read text = before.map Lexeme.token ++ [l.token] ++ after.map Lexeme.token := by
        rw [Token.read, hsplit]
        simp
      rwa [← hread]

lemma Expression.parse_eq_error : (∃ problem, Expression.parse text = .error (offset, problem)) ↔
    FaultAt text offset := by
  constructor
  · rintro ⟨problem, h⟩
    obtain ⟨st, hst⟩ | ⟨before, l, after, st, problem', hsplit, hst, hstuck⟩ :=
      read_or_stuck (.value []) (Token.scan text)
    · rw [Expression.parse_of_foldlM hst] at h
      cases hfinish : finish st with
      | ok e =>
        rw [hfinish] at h
        cases h
      | error p =>
        rw [hfinish] at h
        cases h
        refine .stop (viable_iff.mpr ⟨st, hst⟩) fun e he => ?_
        obtain ⟨st', hst', hfinish'⟩ := groups_iff.mp he
        cases hst.symm.trans hst'
        cases hfinish.symm.trans hfinish'
    · rw [Expression.parse_of_stuck hsplit hst hstuck] at h
      cases h
      refine .token hsplit (viable_iff.mpr ⟨st, hst⟩) ?_
      rw [List.map_append]
      exact not_viable_of_stuck hst hstuck
  · intro h
    cases h with
    | @token before l after split viable stuck =>
      obtain ⟨st, hst⟩ := viable_iff.mp viable
      cases hstep : step st l.token with
      | error p => exact ⟨p, Expression.parse_of_stuck split hst hstep⟩
      | ok st' =>
        refine absurd (viable_iff.mpr ⟨st', ?_⟩) stuck
        rw [List.map_append]
        exact foldlM_append_eq_ok.mpr ⟨st, hst, foldlM_cons_eq_ok.mpr ⟨st', hstep, rfl⟩⟩
    | stop viable incomplete =>
      obtain ⟨st, hst⟩ := viable_iff.mp viable
      rw [Expression.parse_of_foldlM hst]
      cases hfinish : finish st with
      | ok e => exact absurd (groups_iff.mpr ⟨st, hst, hfinish⟩) (incomplete e)
      | error p => exact ⟨p, rfl⟩

/-- Tokens begin between characters of the text. -/
lemma Token.boundary_of_mem_scanAt {start : Nat} {cs : List Char} :
    ∀ l ∈ Token.scanAt start cs, ∃ before after, cs = before ++ after ∧
      start + byteLength before = l.span.start := by
  fun_induction Token.scanAt start cs with
  | case1 => exact fun _ h => absurd h List.not_mem_nil
  | case2 start c cs _ ih =>
    intro l hl
    obtain ⟨before, after, rfl, hplace⟩ := ih l hl
    exact ⟨c :: before, after, rfl, by rw [← hplace, byteLength_cons, Nat.add_assoc]⟩
  | case3 start c cs _ stop ih =>
    refine List.forall_mem_cons.mpr ⟨⟨[], c :: cs, rfl, rfl⟩, fun l hl => ?_⟩
    obtain ⟨before, after, hafter, hplace⟩ := ih l hl
    obtain ⟨own, hown⟩ := Token.next_suffix c cs
    have hlength := congrArg byteLength hown
    rw [byteLength_append] at hlength
    refine ⟨c :: (own ++ before), after, ?_, ?_⟩
    · rw [List.cons_append, List.append_assoc, ← hafter, hown]
    · simp only [← hplace, stop, byteLength_cons, byteLength_append]
      omega

lemma Grouping.FaultAt.isBoundary (h : FaultAt text offset) : IsBoundary text offset := by
  cases h with
  | @token before l after split _ _ =>
    have hl : l ∈ Token.scanAt 0 text := by
      rw [← Token.scan, split]
      simp
    obtain ⟨before, after, htext, hstart⟩ := Token.boundary_of_mem_scanAt l hl
    exact ⟨before, after, htext, by rw [← hstart, Nat.zero_add]⟩
  | stop _ _ => exact ⟨text, [], (List.append_nil text).symm, rfl⟩

/-- A text is read as an expression exactly if its tokens are one, and as the one that the grammar makes of
them, for no tokens are two expressions. Else reading fails at the first token that no expression goes on
with, or at the end if an expression has begun but is not complete, and always between two characters. -/
theorem Expression.parse_grammar (text : List Char) :
    (∀ e, Expression.parse text = .ok e ↔ Groups 1 (Token.read text) e) ∧
      (∀ ts e e', Groups 1 ts e → Groups 1 ts e' → e = e') ∧
      (∀ offset, (∃ problem, Expression.parse text = .error (offset, problem)) ↔ FaultAt text offset) ∧
      ∀ offset, FaultAt text offset → offset ≤ byteLength text ∧ IsBoundary text offset := by
  refine ⟨fun e => parse_eq_ok, fun ts e e' => Groups.unique, fun offset => parse_eq_error,
    fun offset h => ⟨?_, h.isBoundary⟩⟩
  obtain ⟨before, after, rfl, rfl⟩ := h.isBoundary
  rw [byteLength_append]
  exact Nat.le_add_right _ _

/-- Differences group to the left, and two numbers in a row are no expression. -/
theorem Expression.parse_grammar_sample :
    Groups 1 (Token.read "$1 - $2 - !x".toList)
        (.binary .subtract (.binary .subtract (.literal 1) (.literal 2)) (.symbol "x")) ∧
      FaultAt "($1 $2é)".toList 4 ∧ IsBoundary "($1 $2é)".toList 4 := by
  have hfault : FaultAt "($1 $2é)".toList 4 :=
    ((Expression.parse_grammar _).2.2.1 4).mp ⟨.missingParen, by decide +kernel⟩
  exact ⟨((Expression.parse_grammar _).1 _).mp (by decide +kernel), hfault,
    ((Expression.parse_grammar _).2.2.2 4 hfault).2⟩

end Texts
end Machine16
