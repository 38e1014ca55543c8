import Mathlib.Data.List.TakeWhile
import Mathlib.Logic.Basic
import Mathlib.Tactic.SplitIfs
import Machine16.Assembly.Grammar.Word

/-! How the outcome of a parser comes from the outcomes of its parts. -/
namespace Machine16

/-- The text is at its end, or goes on with a character that is not of the class. -/
def Stops (f : Char → Bool) (cs : List Char) : Prop := ∀ c ∈ cs.head?, f c = false

@[simp] lemma stops_nil (f : Char → Bool) : Stops f [] := fun _ h => nomatch h

@[simp] lemma stops_cons {f : Char → Bool} {c : Char} {cs : List Char} :
    Stops f (c :: cs) ↔ f c = false := by
  simp [Stops]

lemma stops_of_head? {f : Char → Bool} {c : Char} {cs : List Char} (h : cs.head? = some c)
    (hf : f c = false) : Stops f cs := by
  rw [Stops, h]
  rintro _ ⟨⟩
  exact hf

lemma Stops.mono {f g : Char → Bool} {cs : List Char} (h : Stops g cs)
    (hfg : ∀ c, f c = true → g c = true) : Stops f cs := by
  intro c hc
  have hg := h c hc
  cases hf : f c with
  | false => rfl
  | true => rw [hfg c hf] at hg; cases hg

lemma Stops.of_append {f : Char → Bool} {cs behind : List Char} (h : Stops f (cs ++ behind)) : Stops f cs := by
  cases cs with
  | nil => exact stops_nil f
  | cons c cs => exact stops_cons.mpr (stops_cons.mp h)

lemma stops_dropWhile (f : Char → Bool) (cs : List Char) : Stops f (cs.dropWhile f) := by
  intro c hc
  have hhead := List.head?_dropWhile_not f cs
  rw [Option.mem_def.mp hc] at hhead
  exact hhead

namespace Parser

variable {α β : Type} {p q : Parser α} {f : α → Parser β} {cs unread place : List Char} {a : α} {b : β}
  {reason : Reason}

/-- The parser cannot read the text, and another one may try. -/
def Misses (p : Parser α) (cs : List Char) : Prop := ∃ place, p cs = .miss place

lemma pure_apply (a : α) (cs : List Char) : (pure a : Parser α) cs = .done a cs := rfl

lemma pure_eq_done {a' : α} : (pure a : Parser α) cs = .done a' unread ↔ a = a' ∧ cs = unread := by
  rw [pure_apply, Outcome.done.injEq]

lemma bind_apply (p : Parser α) (f : α → Parser β) (cs : List Char) :
    (p >>= f) cs = match p cs with
      | .done a unread => f a unread
      | .miss place => .miss place
      | .fail place reason => .fail place reason := rfl

lemma orElse_apply (p q : Parser α) (cs : List Char) :
    (p <|> q) cs = match p cs with
      | .done a unread => .done a unread
      | .miss _ => q cs
      | .fail place reason => .fail place reason := rfl

lemma bind_of_done (h : p cs = .done a unread) (f : α → Parser β) : (p >>= f) cs = f a unread := by
  rw [bind_apply, h]

lemma map_of_done (h : p cs = .done a unread) (g : α → β) :
    (do return g (← p) : Parser β) cs = .done (g a) unread := bind_of_done h _

lemma Misses.bind (h : p.Misses cs) (f : α → Parser β) : (p >>= f).Misses cs := by
  obtain ⟨place, h⟩ := h
  exact ⟨place, by rw [bind_apply, h]⟩

lemma misses_bind_of_done (h : p cs = .done a unread) (hf : (f a).Misses unread) :
    (p >>= f).Misses cs := by
  obtain ⟨place, hf⟩ := hf
  exact ⟨place, by rw [bind_of_done h, hf]⟩

lemma bind_eq_done : (p >>= f) cs = .done b unread ↔
    ∃ a mid, p cs = .done a mid ∧ f a mid = .done b unread := by
  constructor
  · intro h
    rw [bind_apply] at h
    split at h
    · exact ⟨_, _, by assumption, h⟩
    · cases h
    · cases h
  · rintro ⟨a, mid, h, hf⟩
    rw [bind_of_done h, hf]

lemma misses_bind : (p >>= f).Misses cs ↔
    p.Misses cs ∨ ∃ a mid, p cs = .done a mid ∧ (f a).Misses mid := by
  constructor
  · rintro ⟨place, h⟩
    rw [bind_apply] at h
    split at h
    · exact .inr ⟨_, _, by assumption, place, h⟩
    · exact .inl ⟨_, by assumption⟩
    · cases h
  · rintro (h | ⟨a, mid, h, hf⟩)
    · exact h.bind f
    · exact misses_bind_of_done h hf

lemma orElse_of_done (h : p cs = .done a unread) (q : Parser α) : (p <|> q) cs = .done a unread := by
  rw [orElse_apply, h]

lemma orElse_of_misses (h : p.Misses cs) (q : Parser α) : (p <|> q) cs = q cs := by
  obtain ⟨place, h⟩ := h
  rw [orElse_apply, h]

lemma orElse_eq_done : (p <|> q) cs = .done a unread ↔
    p cs = .done a unread ∨ p.Misses cs ∧ q cs = .done a unread := by
  constructor
  · intro h
    rw [orElse_apply] at h
    split at h
    · rename_i hp
      exact .inl (hp.trans h)
    · exact .inr ⟨⟨_, by assumption⟩, h⟩
    · cases h
  · rintro (h | ⟨hp, hq⟩)
    · exact orElse_of_done h q
    · rw [orElse_of_misses hp, hq]

lemma misses_orElse : (p <|> q).Misses cs ↔ p.Misses cs ∧ q.Misses cs := by
  constructor
  · rintro ⟨place, h⟩
    rw [orElse_apply] at h
    split at h
    · cases h
    · exact ⟨⟨_, by assumption⟩, place, h⟩
    · cases h
  · rintro ⟨hp, place, hq⟩
    exact ⟨place, by rw [orElse_of_misses hp, hq]⟩

lemma select_eq_done {f : α → Option β} : p.select f cs = .done b unread ↔
    ∃ a, p cs = .done a unread ∧ f a = some b := by
  unfold select
  constructor
  · intro h
    split at h
    · rename_i a mid hp
      split at h <;> cases h
      exact ⟨a, hp, by assumption⟩
    · cases h
    · cases h
  · rintro ⟨a, hp, hf⟩
    simp only [hp, hf]

lemma misses_select {f : α → Option β} : (p.select f).Misses cs ↔
    p.Misses cs ∨ ∃ a unread, p cs = .done a unread ∧ f a = none := by
  constructor
  · rintro ⟨place, h⟩
    unfold select at h
    split at h
    · split at h <;> cases h
      exact .inr ⟨_, _, by assumption, by assumption⟩
    · exact .inl ⟨_, by assumption⟩
    · cases h
  · rintro (⟨place, hp⟩ | ⟨a, unread, hp, hf⟩)
    · exact ⟨place, by simp only [select, hp]⟩
    · exact ⟨cs, by simp only [select, hp, hf]⟩

lemma notBefore_of_misses (h : p.Misses cs) : p.notBefore cs = .done () cs := by
  obtain ⟨place, h⟩ := h
  simp only [notBefore, h]

lemma misses_notBefore (h : p cs = .done a unread) : p.notBefore.Misses cs :=
  ⟨cs, by simp only [notBefore, h]⟩

lemma notBefore_eq_done {u : Unit} :
    p.notBefore cs = .done u unread ↔ unread = cs ∧ p.Misses cs := by
  constructor
  · intro h
    unfold notBefore at h
    split at h
    · cases h
    · cases h
      exact ⟨rfl, _, by assumption⟩
    · cases h
  · rintro ⟨rfl, h⟩
    exact notBefore_of_misses h

lemma commit_eq_done {d : Declaration} : p.commit d cs = .done a unread ↔ p cs = .done a unread := by
  unfold commit
  split <;> rename_i h <;> rw [h] <;> simp

lemma not_misses_commit (d : Declaration) (p : Parser α) (cs : List Char) : ¬ (p.commit d).Misses cs := by
  rintro ⟨place, h⟩
  unfold commit at h
  split at h <;> cases h

lemma many_of_done {h : p.Progresses} (hp : p cs = .done a unread) :
    p.many h cs = (p.many h unread).map (a :: ·) := by
  rw [many]
  split <;> simp_all

lemma many_of_misses {h : p.Progresses} (hp : p.Misses cs) : p.many h cs = .done [] cs := by
  obtain ⟨place, hp⟩ := hp
  rw [many]
  split <;> simp_all

lemma charIf_eq_done {f : Char → Bool} {c : Char} :
    charIf f cs = .done c unread ↔ cs = c :: unread ∧ f c = true := by
  constructor
  · intro h
    unfold charIf at h
    split at h
    · cases h
    · split_ifs at h with hc
      cases h
      exact ⟨rfl, hc⟩
  · rintro ⟨rfl, hc⟩
    rw [charIf, if_pos hc]

lemma charIf_misses {f : Char → Bool} (h : Stops f cs) : (charIf f).Misses cs := by
  cases cs with
  | nil => exact ⟨[], rfl⟩
  | cons c cs => exact ⟨c :: cs, by rw [charIf, if_neg (by simp [stops_cons.mp h])]⟩

lemma stops_of_misses_charIf {f : Char → Bool} {cs : List Char} (h : (charIf f).Misses cs) : Stops f cs := by
  intro c hc
  obtain ⟨place, h⟩ := h
  obtain ⟨cs, rfl⟩ := List.head?_eq_some_iff.mp hc
  by_contra hf
  rw [Bool.not_eq_false] at hf
  cases h.symm.trans (charIf_eq_done.mpr ⟨rfl, hf⟩)

lemma takeWhile_eq_done {f : Char → Bool} {cs as unread : List Char} (h : takeWhile f cs = .done as unread) :
    cs = as ++ unread ∧ (∀ c ∈ as, f c = true) ∧ Stops f unread := by
  rw [takeWhile, Outcome.done.injEq] at h
  rw [← h.1, ← h.2]
  exact ⟨List.takeWhile_append_dropWhile.symm, fun c hc => List.mem_takeWhile_imp hc, stops_dropWhile f cs⟩

lemma takeWhile1_eq_done {f : Char → Bool} {cs as unread : List Char}
    (h : takeWhile1 f cs = .done as unread) : cs = as ++ unread ∧ ∀ c ∈ as, f c = true := by
  obtain ⟨c, mid, hfirst, h⟩ := bind_eq_done.mp h
  obtain ⟨rest, _, hrest, hpure⟩ := bind_eq_done.mp h
  obtain ⟨rfl, rfl⟩ := pure_eq_done.mp hpure
  obtain ⟨rfl, hc⟩ := charIf_eq_done.mp hfirst
  obtain ⟨rfl, hall, -⟩ := takeWhile_eq_done hrest
  exact ⟨rfl, List.forall_mem_cons.mpr ⟨hc, hall⟩⟩

end Parser

namespace Grammar

open Machine16.Parser

variable {c : Char} {cs unread : List Char}

lemma char_cons (c : Char) (cs : List Char) : char c (c :: cs) = .done () cs :=
  bind_of_done (charIf_eq_done.mpr ⟨rfl, beq_self_eq_true c⟩) _

lemma char_eq_done {u : Unit} : char c cs = .done u unread ↔ cs = c :: unread := by
  constructor
  · intro h
    obtain ⟨d, mid, h, hpure⟩ := bind_eq_done.mp h
    obtain ⟨rfl, hd⟩ := charIf_eq_done.mp h
    obtain ⟨-, rfl⟩ := pure_eq_done.mp hpure
    rw [eq_of_beq hd]
  · rintro rfl
    exact char_cons c unread

lemma char_misses (h : cs.head? ≠ some c) : (char c).Misses cs := by
  refine Misses.bind (charIf_misses fun d hd => ?_) _
  rw [beq_eq_false_iff_ne]
  rintro rfl
  exact h hd

lemma name_misses (h : Stops isNameStart cs) : name.Misses cs :=
  (charIf_misses h).bind _

/-- A name is read to its end. -/
lemma name_eq_done {n : String} : name cs = .done n unread ↔
    ∃ c ds, cs = c :: ds ∧ isNameStart c = true ∧ n = String.ofList (c :: ds.takeWhile isNameChar) ∧
      unread = ds.dropWhile isNameChar := by
  unfold name
  simp only [bind_eq_done, charIf_eq_done, pure_eq_done, takeWhile, Outcome.done.injEq]
  constructor
  · rintro ⟨c, ds, ⟨rfl, hc⟩, _, _, ⟨rfl, rfl⟩, rfl, rfl⟩
    exact ⟨c, ds, rfl, hc, rfl, rfl⟩
  · rintro ⟨c, ds, rfl, hc, rfl, rfl⟩
    exact ⟨c, ds, ⟨rfl, hc⟩, _, _, ⟨rfl, rfl⟩, rfl, rfl⟩

lemma name_misses_or_done (cs : List Char) : name.Misses cs ∨ ∃ n unread, name cs = .done n unread := by
  cases cs with
  | nil => exact .inl (name_misses (stops_nil _))
  | cons c cs =>
    cases hc : isNameStart c with
    | false => exact .inl (name_misses (stops_cons.mpr hc))
    | true => exact .inr ⟨_, _, name_eq_done.mpr ⟨c, cs, rfl, hc, rfl, rfl⟩⟩

lemma register_misses (h : Stops isNameStart cs) : register.Misses cs :=
  misses_select.mpr (.inl (name_misses h))

lemma register_misses_or_done (cs : List Char) :
    register.Misses cs ∨ ∃ r unread, register cs = .done r unread := by
  obtain h | ⟨n, unread, h⟩ := name_misses_or_done cs
  · exact .inl (misses_select.mpr (.inl h))
  · cases hr : Register.ofName? n with
    | none => exact .inl (misses_select.mpr (.inr ⟨n, unread, h, hr⟩))
    | some r => exact .inr ⟨r, unread, select_eq_done.mpr ⟨n, h, hr⟩⟩

lemma number_misses (h : Stops Hex.isDigit cs) : number.Misses cs := by
  have hdigits : digits.Misses cs := ((charIf_misses h).bind _).bind _
  obtain ⟨place, hdigits⟩ := hdigits
  exact ⟨place, by simp only [number, hdigits]⟩

lemma digits_eq_done {cs ds unread : List Char} (h : digits cs = .done ds unread) :
    cs = ds ++ unread ∧ (∀ c ∈ ds, Hex.isDigit c = true) ∧ Stops isNameChar unread := by
  obtain ⟨ds, mid, hds, h⟩ := bind_eq_done.mp h
  obtain ⟨_, _, hend, hpure⟩ := bind_eq_done.mp h
  obtain ⟨rfl, rfl⟩ := pure_eq_done.mp hpure
  obtain ⟨rfl, hmiss⟩ := notBefore_eq_done.mp hend
  obtain ⟨rfl, hall⟩ := takeWhile1_eq_done hds
  exact ⟨rfl, hall, stops_of_misses_charIf hmiss⟩

lemma number_eq_done {cs unread : List Char} {v : UInt32} : number cs = .done v unread ↔
    ∃ ds, digits cs = .done ds unread ∧ Hex.value ds < UInt32.size ∧ UInt32.ofNat (Hex.value ds) = v := by
  unfold number
  constructor
  · intro h
    split at h
    · rename_i ds mid hds
      split_ifs at h with hv
      cases h
      exact ⟨ds, hds, hv, rfl⟩
    · cases h
    · cases h
  · rintro ⟨ds, hds, hv, rfl⟩
    simp only [hds, if_pos hv]

end Grammar
end Machine16
