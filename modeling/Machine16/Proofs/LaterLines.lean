import Machine16.Assembly.Grammar.Statement
import Machine16.Proofs.Outcomes

/-! What is read does not depend on the lines behind it. Words, numbers and operands end with their line
at the latest. Declarations go over several lines, but a complete one has ended before the lines that
follow it. -/
namespace Machine16

/-- Nothing, or text that begins with a line break. -/
def LaterLines : List Char → Prop
  | [] => True
  | c :: _ => c = '\n'

/-- The outcome with more text behind the place where the parser stopped. -/
def Outcome.append {α : Type} (later : List Char) : Outcome α → Outcome α
  | .done a unread => .done a (unread ++ later)
  | .miss place => .miss (place ++ later)
  | .fail place reason => .fail (place ++ later) reason

namespace Parser

variable {α β : Type} {p q : Parser α} {f : α → Parser β} {cs later : List Char}
  {P Q : List Char → Prop}

/-- The parser does the same whatever lines follow. -/
def InLine (p : Parser α) : Prop :=
  ∀ cs later, LaterLines later → p (cs ++ later) = (p cs).append later

/-- Where the parser succeeds and leaves a text with `P`, it does so whatever lines follow. -/
def Keeps (P : List Char → Prop) (p : Parser α) : Prop :=
  ∀ cs a unread later, LaterLines later → p cs = .done a unread → P unread →
    p (cs ++ later) = .done a (unread ++ later)

lemma InLine.keeps (hp : p.InLine) (P : List Char → Prop) : p.Keeps P := by
  intro cs a unread later hlater h _
  rw [hp cs later hlater, h, Outcome.append]

/-- Where the parser misses, it does so whatever lines follow. -/
def KeepsMisses (p : Parser α) : Prop :=
  ∀ cs later, LaterLines later → p.Misses cs → p.Misses (cs ++ later)

lemma InLine.of_done (hp : p.InLine) (hlater : LaterLines later) {a : α} {unread : List Char}
    (h : p cs = .done a unread) : p (cs ++ later) = .done a (unread ++ later) :=
  hp.keeps (fun _ => True) cs a unread later hlater h trivial

lemma InLine.keepsMisses (hp : p.InLine) : p.KeepsMisses := by
  rintro cs later hlater ⟨place, h⟩
  exact ⟨place ++ later, by rw [hp cs later hlater, h, Outcome.append]⟩

lemma inLine_pure (a : α) : (pure a : Parser α).InLine := fun _ _ _ => rfl

lemma InLine.bind (hp : p.InLine) (hf : ∀ a, (f a).InLine) : (p >>= f).InLine := by
  intro cs later hlater
  rw [bind_apply, bind_apply, hp cs later hlater]
  cases p cs with
  | done a unread => exact hf a unread later hlater
  | miss place => rfl
  | fail place reason => rfl

lemma InLine.orElse (hp : p.InLine) (hq : q.InLine) : (p <|> q).InLine := by
  intro cs later hlater
  rw [orElse_apply, orElse_apply, hp cs later hlater]
  cases p cs with
  | done a unread => rfl
  | miss place => exact hq cs later hlater
  | fail place reason => rfl

lemma InLine.select (hp : p.InLine) (f : α → Option β) : (p.select f).InLine := by
  intro cs later hlater
  simp only [Parser.select, hp cs later hlater]
  cases p cs with
  | done a unread => cases h : f a <;> simp only [Outcome.append, h]
  | miss place => rfl
  | fail place reason => rfl

lemma InLine.notBefore (hp : p.InLine) : p.notBefore.InLine := by
  intro cs later hlater
  simp only [Parser.notBefore, hp cs later hlater]
  cases p cs <;> rfl

lemma inLine_charIf {f : Char → Bool} (hf : f '\n' = false) : (charIf f).InLine := by
  intro cs later hlater
  cases cs with
  | cons c cs =>
    simp only [List.cons_append, charIf]
    cases f c <;> rfl
  | nil =>
    cases later with
    | nil => rfl
    | cons d later =>
      obtain rfl : d = '\n' := hlater
      simp only [List.nil_append, charIf, hf]
      rfl

/-- The characters that are taken end at the first one that is not, be it in the text or behind it. -/
lemma takeWhile_append {f : Char → Bool}
    (h : Stops f later ∨ cs.dropWhile f ≠ []) :
    takeWhile f (cs ++ later) = (takeWhile f cs).append later := by
  have hsplit : (cs ++ later).takeWhile f = cs.takeWhile f ∧
      (cs ++ later).dropWhile f = cs.dropWhile f ++ later := by
    induction cs with
    | nil =>
      obtain h | h := h
      · cases later with
        | nil => exact ⟨rfl, rfl⟩
        | cons c later => simp [stops_cons.mp h]
      · exact absurd rfl h
    | cons c cs ih =>
      cases hc : f c with
      | true => simpa [hc] using ih (by simpa [hc] using h)
      | false => simp [hc]
  rw [takeWhile, takeWhile, hsplit.1, hsplit.2, Outcome.append]

lemma LaterLines.stops {f : Char → Bool} (hlater : LaterLines later) (hf : f '\n' = false) :
    Stops f later := by
  cases later with
  | nil => exact stops_nil f
  | cons d later =>
    obtain rfl : d = '\n' := hlater
    exact stops_cons.mpr hf

lemma inLine_takeWhile {f : Char → Bool} (hf : f '\n' = false) : (takeWhile f).InLine :=
  fun _ _ hlater => takeWhile_append (.inl (LaterLines.stops hlater hf))

lemma inLine_takeWhile1 {f : Char → Bool} (hf : f '\n' = false) : (takeWhile1 f).InLine :=
  (inLine_charIf hf).bind fun _ => (inLine_takeWhile hf).bind fun _ => inLine_pure _

/-- A parser that may run over the end of a line keeps its result if it is followed by one that needs
something to read. -/
lemma Keeps.bind (hp : p.Keeps P) (hf : ∀ a, (f a).Keeps Q)
    (hstop : ∀ a mid b unread, f a mid = .done b unread → Q unread → P mid) : (p >>= f).Keeps Q := by
  intro cs b unread later hlater h hQ
  obtain ⟨a, mid, hp', hf'⟩ := bind_eq_done.mp h
  rw [bind_of_done (hp cs a mid later hlater hp' (hstop a mid b unread hf' hQ))]
  exact hf a mid b unread later hlater hf' hQ

lemma InLine.bind_keeps (hp : p.InLine) (hf : ∀ a, (f a).Keeps Q) : (p >>= f).Keeps Q :=
  (hp.keeps fun _ => True).bind hf fun _ _ _ _ _ _ => trivial

lemma Keeps.bind_progresses (hp : p.Keeps (· ≠ [])) (hf : ∀ a, (f a).Keeps Q)
    (hprogress : ∀ a, (f a).Progresses) : (p >>= f).Keeps Q := by
  refine hp.bind hf fun a mid b unread h _ hmid => ?_
  have := hprogress a mid b unread h
  rw [hmid] at this
  exact absurd this (Nat.not_lt_zero _)

/-- What is made of a value does not change what stays unread. -/
lemma Keeps.map (hp : p.Keeps P) (f : α → β) : (do return f (← p) : Parser β).Keeps P :=
  hp.bind (fun _ => (inLine_pure _).keeps P) fun _ _ _ _ h hP => (pure_eq_done.mp h).2 ▸ hP

lemma Keeps.commit (hp : p.Keeps P) (d : Declaration) : (p.commit d).Keeps P := by
  intro cs a unread later hlater h hP
  rw [commit_eq_done] at h ⊢
  exact hp cs a unread later hlater h hP

lemma Keeps.orElse (hp : p.Keeps P) (hmiss : p.KeepsMisses) (hq : q.Keeps P) : (p <|> q).Keeps P := by
  intro cs a unread later hlater h hP
  obtain h | ⟨hm, h⟩ := orElse_eq_done.mp h
  · exact orElse_of_done (hp cs a unread later hlater h hP) q
  · rw [orElse_of_misses (hmiss cs later hlater hm)]
    exact hq cs a unread later hlater h hP

lemma InLine.bind_keepsMisses (hp : p.InLine) (hf : ∀ a, (f a).KeepsMisses) :
    (p >>= f).KeepsMisses := by
  intro cs later hlater h
  obtain h | ⟨a, mid, h, hmiss⟩ := misses_bind.mp h
  · exact (hp.keepsMisses cs later hlater h).bind f
  · exact misses_bind_of_done (hp.of_done hlater h) (hf a mid later hlater hmiss)

lemma keepsMisses_commit (d : Declaration) (p : Parser α) : (p.commit d).KeepsMisses :=
  fun cs _ _ h => absurd h (not_misses_commit d p cs)

lemma keeps_takeWhile (f : Char → Bool) : (takeWhile f).Keeps (· ≠ []) := by
  intro cs a unread later _ h hunread
  rw [takeWhile_append, h, Outcome.append]
  cases h
  exact .inr hunread

lemma keeps_charIf (f : Char → Bool) (P : List Char → Prop) : (charIf f).Keeps P := by
  intro cs c unread later _ h _
  obtain ⟨rfl, hc⟩ := charIf_eq_done.mp h
  exact charIf_eq_done.mpr ⟨rfl, hc⟩

lemma keeps_takeWhile1 (f : Char → Bool) : (takeWhile1 f).Keeps (· ≠ []) :=
  (keeps_charIf f (fun _ => True)).bind
    (fun _ => (keeps_takeWhile f).bind (fun _ => (inLine_pure _).keeps _)
      fun _ _ _ _ h hunread => (pure_eq_done.mp h).2 ▸ hunread)
    fun _ _ _ _ _ _ => trivial

end Parser

namespace Grammar

open Machine16.Parser

lemma inLine_spaces : spaces.InLine := (inLine_takeWhile (by decide)).bind fun _ => inLine_pure _

lemma inLine_char {c : Char} (h : c ≠ '\n') : (char c).InLine :=
  (inLine_charIf (by simpa using h.symm)).bind fun _ => inLine_pure _

lemma inLine_name : name.InLine :=
  (inLine_charIf (by decide)).bind fun _ => (inLine_takeWhile (by decide)).bind fun _ => inLine_pure _

lemma inLine_letters {ws : List Char} (h : '\n' ∉ ws) : (letters ws).InLine := by
  induction ws with
  | nil => exact inLine_pure _
  | cons w ws ih =>
    rw [List.mem_cons, not_or] at h
    have hw : ('\n'.toLower == w) = false := by simpa using h.1
    exact (inLine_charIf hw).bind fun _ => ih h.2

lemma inLine_keyword {w : String} (h : '\n' ∉ w.toList) : (keyword w).InLine :=
  (inLine_letters h).bind fun _ => (inLine_charIf (by decide)).notBefore

lemma inLine_register : register.InLine := inLine_name.select _

lemma inLine_digits : digits.InLine :=
  (inLine_takeWhile1 (by decide)).bind fun _ =>
    (inLine_charIf (by decide)).notBefore.bind fun _ => inLine_pure _

lemma inLine_number : number.InLine := by
  intro cs later hlater
  simp only [number, inLine_digits cs later hlater]
  cases digits cs with
  | done ds unread =>
    simp only [Outcome.append]
    split_ifs <;> rfl
  | miss place => rfl
  | fail place reason => rfl

lemma inLine_hexLiteral : hexLiteral.InLine := (inLine_char (by decide)).bind fun _ => inLine_number

lemma inLine_comma : comma.InLine :=
  inLine_spaces.bind fun _ => (inLine_char (by decide)).bind fun _ => inLine_spaces

lemma inLine_plus : plus.InLine :=
  ((inLine_char (by decide)).bind fun _ => inLine_pure _).orElse (inLine_pure _)

lemma inLine_label : label.InLine :=
  inLine_name.bind fun _ => (inLine_char (by decide)).bind fun _ => inLine_pure _

lemma inLine_dataWidth : dataWidth.InLine :=
  ((inLine_keyword (by decide)).bind fun _ => inLine_pure _).orElse
    ((inLine_keyword (by decide)).bind fun _ => inLine_pure _)

lemma keeps_blanks : blanks.Keeps (· ≠ []) :=
  (keeps_takeWhile isBlank).bind (fun _ => (inLine_pure _).keeps _)
    fun _ _ _ _ h hunread => (pure_eq_done.mp h).2 ▸ hunread

lemma skipTrivia_append {inComment : Bool} {cs later : List Char} (h : skipTrivia inComment cs ≠ []) :
    skipTrivia inComment (cs ++ later) = skipTrivia inComment cs ++ later := by
  induction cs generalizing inComment with
  | nil => exact absurd rfl h
  | cons c cs ih =>
    rw [List.cons_append, skipTrivia, skipTrivia] at *
    split_ifs at * with hcomment hblank hstart
    · exact ih h
    · exact ih h
    · exact ih h
    · rfl

lemma keeps_trivia : trivia.Keeps (· ≠ []) := by
  intro cs a unread later _ h hunread
  cases h
  rw [trivia, skipTrivia_append hunread]

end Grammar
end Machine16
