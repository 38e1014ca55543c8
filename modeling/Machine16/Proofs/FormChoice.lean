import Mathlib.Data.List.Perm.Basic
import Machine16.Proofs.OperandForms

/-! The forms of a mnemonic may be tried in any order. On one text at most one of them fits, none of them
fails for good where another one fits, and those that fail for good do so at the same place and for the same
reason: up to there they have read the same operands. -/
namespace Machine16

namespace Parser

variable {α β : Type} {p q : Parser α} {f : α → Parser β} {cs place : List Char} {reason : Reason}

/-- The parser may miss but never fails for good. -/
def Soft (p : Parser α) : Prop := ∀ cs place reason, p cs ≠ .fail place reason

lemma bind_eq_fail : (p >>= f) cs = .fail place reason ↔
    p cs = .fail place reason ∨ ∃ a mid, p cs = .done a mid ∧ f a mid = .fail place reason := by
  rw [bind_apply]
  cases p cs <;> simp

lemma orElse_eq_fail : (p <|> q) cs = .fail place reason ↔
    p cs = .fail place reason ∨ p.Misses cs ∧ q cs = .fail place reason := by
  rw [orElse_apply, Misses]
  cases p cs <;> simp

lemma soft_pure (a : α) : (pure a : Parser α).Soft := by
  intro cs place reason h
  cases h

lemma Soft.bind (hp : p.Soft) (hf : ∀ a, (f a).Soft) : (p >>= f).Soft := by
  intro cs place reason h
  obtain h | ⟨a, mid, -, h⟩ := bind_eq_fail.mp h
  · exact hp cs place reason h
  · exact hf a mid place reason h

lemma Soft.notBefore (hp : p.Soft) : p.notBefore.Soft := by
  intro cs place reason h
  unfold Parser.notBefore at h
  split at h
  · cases h
  · cases h
  · exact hp cs _ _ (by assumption)

lemma soft_charIf (g : Char → Bool) : (charIf g).Soft := by
  intro cs place reason h
  unfold charIf at h
  split at h
  · cases h
  · split_ifs at h

lemma soft_takeWhile (g : Char → Bool) : (takeWhile g).Soft := by
  intro cs place reason h
  cases h

lemma soft_takeWhile1 (g : Char → Bool) : (takeWhile1 g).Soft :=
  (soft_charIf g).bind fun _ => (soft_takeWhile g).bind fun _ => soft_pure _

end Parser

namespace Grammar

open Machine16.Parser

variable {cs mid place unread : List Char} {reason : Reason} {s t : Slot} {f g : Format} {op op' : Opcode}
  {ops ops' : List Opcode} {mnemonic : String}

section Words

lemma soft_char (c : Char) : (char c).Soft := (soft_charIf _).bind fun _ => soft_pure _

lemma soft_spaces : spaces.Soft := (soft_takeWhile _).bind fun _ => soft_pure _

lemma soft_commaAhead : commaAhead.Soft := soft_spaces.bind fun _ => soft_char ','

lemma soft_comma : comma.Soft := soft_spaces.bind fun _ => (soft_char ',').bind fun _ => soft_spaces

end Words

section Operands

/-- Where an operand fails for good the text begins like an operand of its kind. -/
lemma kindAt_of_fail (h : operand s cs = .fail place reason) : kindAt cs = s.kind := by
  by_contra hkind
  obtain ⟨place', hmiss⟩ := operand_misses hkind
  cases hmiss.symm.trans h

lemma operand_fail_of_kind_eq (hkind : s.kind = t.kind) (h : operand t cs = .fail place reason) :
    operand s cs = .fail place reason := by
  have hvalue {make make' : Expression → Operand Expression}
      (h : (literal >>= fun e => pure (make e) : Parser (Operand Expression)) cs = .fail place reason) :
      (literal >>= fun e => pure (make' e) : Parser (Operand Expression)) cs = .fail place reason := by
    obtain h | ⟨e, mid, -, h⟩ := bind_eq_fail.mp h
    · exact bind_eq_fail.mpr (.inl h)
    · cases h
  cases s <;> cases t <;> first | exact h | exact hvalue h | cases hkind

/-- The first operand fails, or one that follows after a comma. -/
lemma operands_cons_eq_fail (h : operands (s :: f) cs = .fail place reason) :
    operand s cs = .fail place reason ∨ ∃ o mid next, operand s cs = .done o mid ∧
      comma mid = .done () next ∧ operands f next = .fail place reason := by
  by_cases hf : f = []
  · subst hf
    obtain h | ⟨o, mid, -, h⟩ := bind_eq_fail.mp h
    · exact .inl h
    · cases h
  · rw [operands_cons hf] at h
    obtain h | ⟨o, mid, ho, h⟩ := bind_eq_fail.mp h
    · exact .inl h
    obtain h | ⟨_, next, hcomma, h⟩ := bind_eq_fail.mp h
    · exact absurd h (soft_comma _ _ _)
    obtain h | ⟨os, _, -, h⟩ := bind_eq_fail.mp h
    · exact .inr ⟨o, mid, next, ho, hcomma, h⟩
    · cases h

/-- What happens to the operands of one format where those of another format fail for good. -/
lemma operands_of_fail (hf : f ≠ []) (h : operands g cs = .fail place reason) :
    operands f cs = .fail place reason ∨ (operands f).Misses cs ∨ ∃ os mid end',
      operands f cs = .done os mid ∧ commaAhead mid = .done () end' := by
  induction f generalizing g cs with
  | nil => exact absurd rfl hf
  | cons s f ih =>
    obtain - | ⟨t, g⟩ := g
    · cases h
    have hother (hkind : kindAt cs ≠ s.kind) : (operands (s :: f)).Misses cs := by
      have hmiss : (operand s).Misses cs := operand_misses hkind
      cases f with
      | nil => exact hmiss.bind _
      | cons s' f => exact hmiss.bind _
    obtain hfail | ⟨o, mid, next, ho, hcomma, hrest⟩ := operands_cons_eq_fail h
    · by_cases hkind : s.kind = t.kind
      · have hfail' := operand_fail_of_kind_eq hkind hfail
        left
        cases f with
        | nil => exact bind_eq_fail.mpr (.inl hfail')
        | cons s' f => exact bind_eq_fail.mpr (.inl hfail')
      · rw [← kindAt_of_fail hfail] at hkind
        exact .inr (.inl (hother (Ne.symm hkind)))
    · by_cases hkind : s.kind = t.kind
      · obtain ⟨o', ho'⟩ := operand_of_kind_eq hkind ho
        by_cases hf' : f = []
        · -- this format is complete before the comma
          subst hf'
          rw [comma_eq] at hcomma
          obtain ⟨_, end', hahead, -⟩ := bind_eq_done.mp hcomma
          exact .inr (.inr ⟨[o'], mid, end', bind_of_done ho' _, hahead⟩)
        · rw [operands_cons hf', bind_of_done ho', bind_of_done hcomma]
          obtain hfail | hmiss | ⟨os, mid', end', hos, hahead⟩ := ih hf' hrest
          · exact .inl (bind_eq_fail.mpr (.inl hfail))
          · exact .inr (.inl (misses_bind_of_done ho' (misses_bind_of_done hcomma (hmiss.bind _))))
          · exact .inr (.inr ⟨o' :: os, mid', end', bind_of_done hos _, hahead⟩)
      · rw [← kindAt_of_done ho] at hkind
        exact .inr (.inl (hother (Ne.symm hkind)))

end Operands

section Forms

/-- The operands of the opcode stand in the text, and no comma calls for another one. -/
def Fits (op : Opcode) (cs : List Char) : Prop :=
  ∃ os unread, arguments op.format cs = .done os unread ∧ commaAhead.Misses unread

lemma fits_iff : Fits op cs ↔ ∃ i unread, form op cs = .done i unread := by
  constructor
  · rintro ⟨os, unread, h⟩
    exact ⟨⟨op, os⟩, unread, form_eq_done.mpr ⟨rfl, h⟩⟩
  · rintro ⟨i, unread, h⟩
    exact ⟨i.operands, unread, (form_eq_done.mp h).2⟩

lemma form_eq_fail : form op cs = .fail place reason ↔ arguments op.format cs = .fail place reason := by
  constructor
  · intro h
    obtain h | ⟨os, mid, -, h⟩ := bind_eq_fail.mp h
    · exact h
    obtain h | ⟨_, _, -, h⟩ := bind_eq_fail.mp h
    · exact absurd h (soft_commaAhead.notBefore _ _ _)
    · cases h
  · intro h
    exact bind_eq_fail.mpr (.inl h)

/-- Where one opcode of a mnemonic fails for good, another one fails in the same way or misses. -/
lemma form_of_fail (h : form op cs = .fail place reason) (hmnemonic : op'.mnemonic = op.mnemonic) :
    form op' cs = .fail place reason ∨ (form op').Misses cs := by
  by_cases hne : op' = op
  · exact .inl (hne ▸ h)
  have hformats : ¬ (op'.format = [] ∨ op.format = []) := fun hnil =>
    hne (Opcode.eq_of_mnemonic hmnemonic (.inr hnil))
  rw [not_or] at hformats
  have harguments := form_eq_fail.mp h
  rw [arguments, if_neg hformats.2] at harguments
  obtain hblank | ⟨blank, mid, hblank, hos⟩ := bind_eq_fail.mp harguments
  · exact absurd hblank (soft_takeWhile1 _ _ _ _)
  unfold form
  rw [arguments, if_neg hformats.1]
  obtain hfail | hmiss | ⟨os, mid', end', hos', hahead⟩ := operands_of_fail hformats.1 hos
  · exact .inl (bind_eq_fail.mpr (.inl ((bind_of_done hblank _).trans hfail)))
  · exact .inr ((misses_bind_of_done hblank hmiss).bind _)
  · exact .inr (misses_bind_of_done ((bind_of_done hblank _).trans hos')
      ((misses_notBefore hahead).bind _))

section Pairs

variable {place' : List Char} {reason' : Reason}

lemma Fits.unique (h : Fits op cs) (h' : Fits op' cs) (hmnemonic : op'.mnemonic = op.mnemonic) : op = op' := by
  by_contra hne
  obtain ⟨i, unread, h⟩ := fits_iff.mp h
  obtain ⟨i', unread', h'⟩ := fits_iff.mp h'
  obtain ⟨place, hmiss⟩ := form_misses h hmnemonic (Ne.symm hne)
  cases hmiss.symm.trans h'

lemma Fits.not_fail (h : Fits op cs) (hmnemonic : op'.mnemonic = op.mnemonic) :
    arguments op'.format cs ≠ .fail place reason := by
  intro hfail
  obtain ⟨i, unread, h⟩ := fits_iff.mp h
  obtain hfail' | ⟨place', hmiss⟩ := form_of_fail (form_eq_fail.mpr hfail) hmnemonic.symm
  · cases h.symm.trans hfail'
  · cases h.symm.trans hmiss

lemma arguments_fail_unique (h : arguments op.format cs = .fail place reason)
    (h' : arguments op'.format cs = .fail place' reason') (hmnemonic : op'.mnemonic = op.mnemonic) :
    place = place' ∧ reason = reason' := by
  rw [← form_eq_fail] at h h'
  obtain hfail | ⟨_, hmiss⟩ := form_of_fail h hmnemonic
  · cases hfail.symm.trans h'
    exact ⟨rfl, rfl⟩
  · cases hmiss.symm.trans h'

end Pairs

lemma misses_firstForm : (firstForm ops).Misses cs ↔ ∀ op ∈ ops, (form op).Misses cs := by
  induction ops with
  | nil => exact ⟨fun _ _ hop => absurd hop List.not_mem_nil, fun _ => ⟨cs, rfl⟩⟩
  | cons op ops ih => rw [firstForm, misses_orElse, ih, List.forall_mem_cons]

lemma firstForm_eq_fail (hops : ∀ op ∈ ops, op.mnemonic = mnemonic) :
    firstForm ops cs = .fail place reason ↔ ∃ op ∈ ops, form op cs = .fail place reason := by
  induction ops with
  | nil =>
    simp only [List.not_mem_nil, false_and, exists_false, iff_false]
    exact fun h => nomatch h
  | cons op ops ih =>
    obtain ⟨hop, hops⟩ := List.forall_mem_cons.mp hops
    rw [firstForm, orElse_eq_fail, ih hops, List.exists_mem_cons_iff]
    constructor
    · rintro (h | ⟨-, h⟩)
      · exact .inl h
      · exact .inr h
    · rintro (h | ⟨op', hmem, h⟩)
      · exact .inl h
      · obtain hfail | hmiss := form_of_fail h (hop.trans (hops op' hmem).symm)
        · exact .inl hfail
        · exact .inr ⟨hmiss, op', hmem, h⟩

/-- The forms of the opcodes, tried one after the other. -/
def formsIn : List Opcode → Parser (Instruction Expression)
  | [] => miss
  | op :: ops => firstForm (op :: ops) <|> do
    spaces
    fail ⟨.operands op.mnemonic, none⟩

/-- Instructions where `order` says in which order the opcodes of a mnemonic are tried. -/
def instructionIn (order : String → List Opcode) : Parser (Instruction Expression) := do
  let mnemonic ← name
  notBefore (char ':')
  formsIn (order mnemonic)

/-- The table gives one of the orders. -/
lemma instructionIn_ofMnemonic : instructionIn Opcode.ofMnemonic = instruction := rfl

lemma formsIn_perm (hperm : ops'.Perm ops) (hops : ∀ op ∈ ops, op.mnemonic = mnemonic) :
    formsIn ops' = formsIn ops := by
  have hops' : ∀ op ∈ ops', op.mnemonic = mnemonic := fun op hop => hops op (hperm.mem_iff.mp hop)
  obtain - | ⟨op, rest⟩ := ops
  · rw [hperm.eq_nil]
  obtain - | ⟨op', rest'⟩ := ops'
  · rw [hperm.symm.eq_nil]
  funext cs
  cases hfirst : firstForm (op :: rest) cs with
  | done i unread =>
    have hfirst' := (firstForm_eq_done hops).mp hfirst
    rw [← hperm.mem_iff] at hfirst'
    rw [formsIn, formsIn, orElse_of_done hfirst, orElse_of_done ((firstForm_eq_done hops').mpr hfirst')]
  | fail place reason =>
    obtain ⟨failing, hmem, hfail⟩ := (firstForm_eq_fail hops).mp hfirst
    have hfirst' := (firstForm_eq_fail hops').mpr ⟨failing, hperm.mem_iff.mpr hmem, hfail⟩
    exact (orElse_eq_fail.mpr (.inl hfirst')).trans (orElse_eq_fail.mpr (.inl hfirst)).symm
  | miss place =>
    have hmiss : (firstForm (op :: rest)).Misses cs := ⟨place, hfirst⟩
    have hmiss' : (firstForm (op' :: rest')).Misses cs :=
      misses_firstForm.mpr fun o ho => misses_firstForm.mp hmiss o (hperm.mem_iff.mp ho)
    rw [formsIn, formsIn, orElse_of_misses hmiss, orElse_of_misses hmiss',
      hops op List.mem_cons_self, hops' op' List.mem_cons_self]

end Forms

/-- On any text at most one opcode of a mnemonic fits. Where one fits none fails for good, and all that fail for
good fail at the same place for the same reason. So the outcome of reading an instruction, be it one or an
error, does not depend on the order in which the opcodes of its mnemonic are tried. -/
theorem instruction_unambiguous :
    (∀ mnemonic cs, ∀ op ∈ Opcode.ofMnemonic mnemonic, ∀ op' ∈ Opcode.ofMnemonic mnemonic,
      (Fits op cs → Fits op' cs → op = op') ∧
      (∀ place reason, Fits op cs → arguments op'.format cs ≠ .fail place reason) ∧
      ∀ place reason place' reason', arguments op.format cs = .fail place reason →
        arguments op'.format cs = .fail place' reason' → place = place' ∧ reason = reason') ∧
    ∀ order : String → List Opcode, (∀ mnemonic, (order mnemonic).Perm (Opcode.ofMnemonic mnemonic)) →
      instructionIn order = instruction := by
  refine ⟨fun mnemonic cs op hop op' hop' => ?_, fun order horder => ?_⟩
  · have hmnemonic : op'.mnemonic = op.mnemonic :=
      (Opcode.mnemonic_of_mem hop').trans (Opcode.mnemonic_of_mem hop).symm
    exact ⟨fun hfits hfits' => hfits.unique hfits' hmnemonic, fun place reason hfits => hfits.not_fail hmnemonic,
      fun place reason place' reason' h h' => arguments_fail_unique h h' hmnemonic⟩
  · rw [← instructionIn_ofMnemonic]
    unfold instructionIn
    simp only [fun mnemonic => formsIn_perm (horder mnemonic) fun op => Opcode.mnemonic_of_mem]

/-- Of the forms with a literal in front one fits, whichever is tried first. A literal that is too large
is too large for all of them. -/
theorem instruction_unambiguous_mov :
    (Fits .movLitOffReg " $1, &r1, r2".toList ∧ ¬ Fits .movLitReg " $1, &r1, r2".toList) ∧
    (∀ place reason, arguments Opcode.movLitMem.format " $1, &r1, r2".toList ≠ .fail place reason) ∧
    (∀ place reason, arguments Opcode.movLitReg.format " $123456789, r1".toList = .fail place reason →
      place = "123456789, r1".toList ∧ reason = ⟨.literalTooLarge, none⟩) ∧
    instructionIn (fun mnemonic => (Opcode.ofMnemonic mnemonic).reverse) = instruction := by
  obtain ⟨hforms, horder⟩ := instruction_unambiguous
  have hfits : Fits .movLitOffReg " $1, &r1, r2".toList :=
    ⟨[.literal (.literal 1), .pointer .r1, .register .r2], [], by decide +kernel, [], rfl⟩
  have hlarge : arguments Opcode.movLitMem.format " $123456789, r1".toList =
    .fail "123456789, r1".toList ⟨.literalTooLarge, none⟩ := by decide +kernel
  refine ⟨⟨hfits, fun h => ?_⟩, fun place reason => ?_, fun place reason h => ?_,
    horder _ fun mnemonic => List.reverse_perm _⟩
  · cases (hforms "mov" _ .movLitOffReg (by decide) .movLitReg (by decide)).1 hfits h
  · exact (hforms "mov" _ .movLitOffReg (by decide) .movLitMem (by decide)).2.1 place reason hfits
  · exact (hforms "mov" _ .movLitReg (by decide) .movLitMem (by decide)).2.2 _ _ _ _ h hlarge

end Grammar
end Machine16
