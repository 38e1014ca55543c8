import Machine16.Assembly.SyntaxError

/-! Parsers of source text. A parser reads from the front of a text, or misses, so that another
may try, or fails for good. Where it stops is always an ending of the text, which `Local` says,
and a parser that cannot succeed without taking something `Progresses`. -/
namespace Machine16

inductive Outcome (α : Type)
  | done (value : α) (unread : List Char)
  | miss (place : List Char)
  | fail (place : List Char) (reason : Reason)
  deriving DecidableEq, Repr

namespace Outcome

variable {α β : Type}

def map (f : α → β) : Outcome α → Outcome β
  | done a unread => done (f a) unread
  | miss place => miss place
  | fail place reason => fail place reason

/-- The unread text, or the place of an error. -/
def stop : Outcome α → List Char
  | done _ unread => unread
  | miss place => place
  | fail place _ => place

@[simp] theorem stop_map (f : α → β) (o : Outcome α) : (o.map f).stop = o.stop := by
  cases o <;> rfl

end Outcome

def Parser (α : Type) := List Char → Outcome α

namespace Parser

variable {α β : Type}

instance : Monad Parser where
  pure a := fun cs => .done a cs
  bind p f := fun cs =>
    match p cs with
    | .done a unread => f a unread
    | .miss place => .miss place
    | .fail place reason => .fail place reason

def miss : Parser α := fun cs => .miss cs

def fail (reason : Reason) : Parser α := fun cs => .fail cs reason

/-- The second parser reads the same text if the first one misses. -/
def orElse (p q : Parser α) : Parser α := fun cs =>
  match p cs with
  | .done a unread => .done a unread
  | .miss _ => q cs
  | .fail place reason => .fail place reason

instance : OrElse (Parser α) := ⟨fun p q => orElse p (q ())⟩

/-- What the parser reads, if `f` makes something of it. -/
def select (p : Parser α) (f : α → Option β) : Parser β := fun cs =>
  match p cs with
  | .done a unread =>
    match f a with
    | some b => .done b unread
    | none => .miss cs
  | .miss place => .miss place
  | .fail place reason => .fail place reason

/-- Succeeds where the parser does not, and takes nothing. -/
def notBefore (p : Parser α) : Parser Unit := fun cs =>
  match p cs with
  | .done _ _ => .miss cs
  | .miss _ => .done () cs
  | .fail place reason => .fail place reason

/-- Where nothing else can be meant a miss is an error. -/
def commit (d : Declaration) (p : Parser α) : Parser α := fun cs =>
  match p cs with
  | .done a unread => .done a unread
  | .miss place => .fail place ⟨.unexpectedInput, some d⟩
  | .fail place reason => .fail place ⟨reason.problem, some d⟩

def charIf (f : Char → Bool) : Parser Char
  | [] => .miss []
  | c :: cs => if f c then .done c cs else .miss (c :: cs)

def takeWhile (f : Char → Bool) : Parser (List Char) := fun cs =>
  .done (cs.takeWhile f) (cs.dropWhile f)

/-- At least one character. -/
def takeWhile1 (f : Char → Bool) : Parser (List Char) := do
  let c ← charIf f
  let cs ← takeWhile f
  return c :: cs

def Local (p : Parser α) : Prop := ∀ cs, (p cs).stop <:+ cs

def Progresses (p : Parser α) : Prop :=
  ∀ cs a unread, p cs = .done a unread → unread.length < cs.length

/-- Reads again and again until the parser misses. -/
def many (p : Parser α) (h : p.Progresses) (cs : List Char) : Outcome (List α) :=
  match hp : p cs with
  | .done a unread =>
    have := h cs a unread hp
    (many p h unread).map (a :: ·)
  | .miss _ => .done [] cs
  | .fail place reason => .fail place reason
termination_by cs.length

theorem local_pure (a : α) : (pure a : Parser α).Local := fun cs => List.suffix_refl cs

theorem local_miss : (miss : Parser α).Local := fun cs => List.suffix_refl cs

theorem local_fail (reason : Reason) : (fail reason : Parser α).Local :=
  fun cs => List.suffix_refl cs

theorem Local.bind {p : Parser α} {f : α → Parser β} (hp : p.Local) (hf : ∀ a, (f a).Local) :
    (p >>= f).Local := by
  intro cs
  have h := hp cs
  change Outcome.stop (match p cs with
    | .done a unread => f a unread
    | .miss place => .miss place
    | .fail place reason => .fail place reason) <:+ cs
  split <;> simp_all only [Outcome.stop]
  exact (hf _ _).trans h

theorem Local.orElse {p q : Parser α} (hp : p.Local) (hq : q.Local) : (p <|> q).Local := by
  intro cs
  have h := hp cs
  change Outcome.stop (Parser.orElse p q cs) <:+ cs
  unfold Parser.orElse
  split <;> simp_all only [Outcome.stop]
  exact hq cs

theorem Local.select {p : Parser α} (hp : p.Local) (f : α → Option β) : (p.select f).Local := by
  intro cs
  have h := hp cs
  unfold Parser.select
  split
  · split <;> simp_all [Outcome.stop]
  · simp_all [Outcome.stop]
  · simp_all [Outcome.stop]

theorem Local.notBefore {p : Parser α} (hp : p.Local) : p.notBefore.Local := by
  intro cs
  have h := hp cs
  unfold Parser.notBefore
  split <;> simp_all [Outcome.stop]

theorem Local.commit {p : Parser α} (hp : p.Local) (d : Declaration) : (p.commit d).Local := by
  intro cs
  have h := hp cs
  unfold Parser.commit
  split <;> simp_all [Outcome.stop]

theorem local_charIf (f : Char → Bool) : (charIf f).Local := by
  intro cs
  fun_cases charIf f cs
  · exact List.suffix_refl _
  · exact List.suffix_cons _ _
  · exact List.suffix_refl _

theorem local_takeWhile (f : Char → Bool) : (takeWhile f).Local :=
  fun _ => List.dropWhile_suffix f

theorem local_takeWhile1 (f : Char → Bool) : (takeWhile1 f).Local :=
  (local_charIf f).bind fun _ => (local_takeWhile f).bind fun _ => local_pure _

theorem Local.many {p : Parser α} (hl : p.Local) (h : p.Progresses) : Local (p.many h) := by
  intro cs
  fun_induction Parser.many p h cs with
  | case1 cs a unread hp _ ih =>
    have := hl cs
    rw [hp] at this
    simpa using ih.trans this
  | case2 cs place hp => exact List.suffix_refl cs
  | case3 cs place reason hp =>
    have := hl cs
    rwa [hp] at this

theorem Progresses.bind {p : Parser α} {f : α → Parser β} (hp : p.Progresses)
    (hf : ∀ a, (f a).Local) : (p >>= f).Progresses := by
  intro cs b unread h
  change (match p cs with
    | .done a unread => f a unread
    | .miss place => .miss place
    | .fail place reason => .fail place reason) = _ at h
  split at h
  · rename_i a mid hmid
    have h1 := hp _ _ _ hmid
    have h2 := (hf a mid).length_le
    rw [h] at h2
    simp only [Outcome.stop] at h2
    omega
  · simp at h
  · simp at h

theorem Local.bind_progresses {p : Parser α} {f : α → Parser β} (hp : p.Local)
    (hf : ∀ a, (f a).Progresses) : (p >>= f).Progresses := by
  intro cs b unread h
  have hl := hp cs
  change (match p cs with
    | .done a unread => f a unread
    | .miss place => .miss place
    | .fail place reason => .fail place reason) = _ at h
  split at h
  · rename_i a mid hmid
    rw [hmid] at hl
    have h1 := hl.length_le
    have h2 := hf a _ _ _ h
    simp only [Outcome.stop] at h1
    omega
  · simp at h
  · simp at h

theorem Progresses.orElse {p q : Parser α} (hp : p.Progresses) (hq : q.Progresses) :
    (p <|> q).Progresses := by
  intro cs a unread h
  change Parser.orElse p q cs = _ at h
  unfold Parser.orElse at h
  split at h
  · rename_i hd
    simp only [Outcome.done.injEq] at h
    exact h.2 ▸ hp _ _ _ hd
  · exact hq _ _ _ h
  · simp at h

theorem Progresses.commit {p : Parser α} (hp : p.Progresses) (d : Declaration) :
    (p.commit d).Progresses := by
  intro cs a unread h
  unfold Parser.commit at h
  split at h
  · rename_i hd
    simp only [Outcome.done.injEq] at h
    exact h.2 ▸ hp _ _ _ hd
  · simp at h
  · simp at h

theorem progresses_charIf (f : Char → Bool) : (charIf f).Progresses := by
  intro cs a unread h
  unfold charIf at h
  split at h
  · simp at h
  · split at h
    · simp only [Outcome.done.injEq] at h
      simp [← h.2]
    · simp at h

end Parser
end Machine16
