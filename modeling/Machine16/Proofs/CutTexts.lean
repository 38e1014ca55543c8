import Machine16.Proofs.Lines
import Machine16.Proofs.Rereading

/-! What has been read of a text is read just so where the text behind it is cut off. Parsers look ahead
only to see that what they have read does not go on, and it does not go on past the end of a text. -/
namespace Machine16

namespace Parser

variable {α β : Type} {p q : Parser α} {f : α → Parser β} {P Q : List Char → Prop}

/-- Where the parser succeeds and leaves a text with `P`, it does so without what follows this text. -/
structure Cuts (P : List Char → Prop) (p : Parser α) : Prop where
  isLocal : p.Local
  cut : ∀ cs a mid behind, p (cs ++ behind) = .done a (mid ++ behind) → P mid → p cs = .done a mid

/-- Where the parser misses a text, it misses every beginning of it. -/
def CutsMisses (p : Parser α) : Prop := ∀ cs behind, p.Misses (cs ++ behind) → p.Misses cs

lemma Cuts.mono (hp : p.Cuts P) (hPQ : ∀ cs, Q cs → P cs) : p.Cuts Q :=
  ⟨hp.isLocal, fun cs a mid behind h hQ => hp.cut cs a mid behind h (hPQ mid hQ)⟩

lemma cuts_pure (a : α) : (pure a : Parser α).Cuts P := by
  refine ⟨local_pure a, fun cs b mid behind h _ => ?_⟩
  obtain ⟨rfl, hcs⟩ := pure_eq_done.mp h
  rw [List.append_cancel_right hcs, pure_apply]

lemma Cuts.bind (hp : p.Cuts P) (hf : ∀ a, (f a).Cuts Q)
    (hstop : ∀ a mid b unread, f a mid = .done b unread → Q unread → P mid) : (p >>= f).Cuts Q := by
  refine ⟨hp.isLocal.bind fun a => (hf a).isLocal, fun cs b unread behind h hQ => ?_⟩
  obtain ⟨a, mid, ha, hb⟩ := bind_eq_done.mp h
  obtain ⟨read, hread⟩ : unread ++ behind <:+ mid := by
    have hlocal := (hf a).isLocal mid
    rwa [hb] at hlocal
  rw [← List.append_assoc] at hread
  subst hread
  have hb' := (hf a).cut _ b unread behind hb hQ
  rw [bind_of_done (hp.cut cs a _ behind ha (hstop a _ b unread hb' hQ)), hb']

/-- A parser without conditions may be followed by any other. -/
lemma Cuts.andThen (hp : p.Cuts fun _ => True) (hf : ∀ a, (f a).Cuts Q) : (p >>= f).Cuts Q :=
  hp.bind hf fun _ _ _ _ _ _ => trivial

lemma Cuts.map (hp : p.Cuts P) (g : α → β) : (do return g (← p) : Parser β).Cuts P :=
  hp.bind (fun _ => cuts_pure _) fun _ _ _ _ h hP => (pure_eq_done.mp h).2 ▸ hP

lemma Cuts.orElse (hp : p.Cuts P) (hq : q.Cuts P)
    (hmiss : ∀ cs behind a mid, p.Misses (cs ++ behind) → q cs = .done a mid → P mid → p.Misses cs) :
    (p <|> q).Cuts P := by
  refine ⟨hp.isLocal.orElse hq.isLocal, fun cs a mid behind h hP => ?_⟩
  obtain h | ⟨hm, h⟩ := orElse_eq_done.mp h
  · exact orElse_of_done (hp.cut cs a mid behind h hP) q
  · have hdone := hq.cut cs a mid behind h hP
    rw [orElse_of_misses (hmiss cs behind a mid hm hdone hP), hdone]

lemma Cuts.select (hp : p.Cuts P) (g : α → Option β) : (p.select g).Cuts P := by
  refine ⟨hp.isLocal.select g, fun cs b mid behind h hP => ?_⟩
  obtain ⟨a, ha, hg⟩ := select_eq_done.mp h
  exact select_eq_done.mpr ⟨a, hp.cut cs a mid behind ha hP, hg⟩

lemma CutsMisses.notBefore (hlocal : p.Local) (hp : p.CutsMisses) : p.notBefore.Cuts P := by
  refine ⟨hlocal.notBefore, fun cs u mid behind h _ => ?_⟩
  obtain ⟨hmid, hmiss⟩ := notBefore_eq_done.mp h
  rw [List.append_cancel_right hmid, notBefore_of_misses (hp cs behind hmiss)]

lemma Cuts.commit (hp : p.Cuts P) (d : Declaration) : (p.commit d).Cuts P :=
  ⟨hp.isLocal.commit d, fun cs a mid behind h hP =>
    commit_eq_done.mpr (hp.cut cs a mid behind (commit_eq_done.mp h) hP)⟩

lemma cuts_charIf (f : Char → Bool) : (charIf f).Cuts P := by
  refine ⟨local_charIf f, fun cs c mid behind h _ => ?_⟩
  obtain ⟨hcs, hc⟩ := charIf_eq_done.mp h
  exact charIf_eq_done.mpr ⟨List.append_cancel_right hcs, hc⟩

lemma cutsMisses_charIf (f : Char → Bool) : (charIf f).CutsMisses :=
  fun _ _ h => charIf_misses (stops_of_misses_charIf h).of_append

lemma cuts_takeWhile (f : Char → Bool) : (takeWhile f).Cuts P := by
  refine ⟨local_takeWhile f, fun cs as mid behind h _ => ?_⟩
  obtain ⟨hcs, hall, hstops⟩ := takeWhile_eq_done h
  rw [← List.append_assoc] at hcs
  rw [List.append_cancel_right hcs]
  exact takeWhile_of_stops hall hstops.of_append

lemma cuts_takeWhile1 (f : Char → Bool) : (takeWhile1 f).Cuts P :=
  (cuts_charIf f).andThen fun _ => (cuts_takeWhile f).map _

end Parser

namespace Grammar

open Machine16.Parser

section Words

variable {P : List Char → Prop}

lemma cuts_char (c : Char) : (char c).Cuts P := (cuts_charIf _).map _

lemma cutsMisses_char (c : Char) : (char c).CutsMisses := by
  intro cs behind h
  obtain h | ⟨_, _, _, _, h⟩ := misses_bind.mp h
  · exact (cutsMisses_charIf _ cs behind h).bind _
  · cases h

lemma cuts_spaces : spaces.Cuts P := (cuts_takeWhile isSpace).map _

lemma cuts_blanks : blanks.Cuts P := (cuts_takeWhile isBlank).map _

lemma skipTrivia_append_suffix {inComment : Bool} {cs : List Char} (h : skipTrivia inComment cs = [])
    (behind : List Char) : skipTrivia inComment (cs ++ behind) <:+ behind := by
  induction cs generalizing inComment with
  | nil => exact skipTrivia_suffix inComment behind
  | cons c cs ih =>
    rw [List.cons_append, skipTrivia]
    rw [skipTrivia] at h
    split_ifs at h ⊢ <;> exact ih h

lemma cuts_trivia : trivia.Cuts P := by
  refine ⟨local_trivia, fun cs u mid behind h _ => ?_⟩
  have hskip : skipTrivia false (cs ++ behind) = mid ++ behind := (Outcome.done.inj h).2
  suffices skipTrivia false cs = mid by rw [trivia, this]
  by_cases hne : skipTrivia false cs = []
  · -- all of the text is trivia, so that no more than what is behind it can be left
    have hlength := (skipTrivia_append_suffix hne behind).length_le
    rw [hskip, List.length_append] at hlength
    rw [hne, List.length_eq_zero_iff.mp (by omega : mid.length = 0)]
  · rw [skipTrivia_append hne] at hskip
    exact List.append_cancel_right hskip

lemma cuts_name : name.Cuts P :=
  (cuts_charIf isNameStart).andThen fun _ => (cuts_takeWhile isNameChar).map _

lemma cuts_letters (ws : List Char) : (letters ws).Cuts P := by
  induction ws with
  | nil => exact cuts_pure ()
  | cons w ws ih => exact (cuts_charIf _).andThen fun _ => ih

lemma cuts_keyword (w : String) : (keyword w).Cuts P :=
  (cuts_letters _).andThen fun _ => (cutsMisses_charIf _).notBefore (local_charIf _)

lemma cuts_register : register.Cuts P := cuts_name.select _

lemma cuts_digits : digits.Cuts P :=
  (cuts_takeWhile1 _).andThen fun _ =>
    ((cutsMisses_charIf _).notBefore (local_charIf _)).andThen fun _ => cuts_pure _

lemma cuts_number : number.Cuts P := by
  refine ⟨local_number, fun cs v mid behind h hP => ?_⟩
  obtain ⟨ds, hds, hv⟩ := number_eq_done.mp h
  exact number_eq_done.mpr ⟨ds, cuts_digits.cut cs ds mid behind hds hP, hv⟩

lemma cuts_hexLiteral : hexLiteral.Cuts P := (cuts_char '$').andThen fun _ => cuts_number

end Words

section Instructions

variable {P : List Char → Prop}

lemma cuts_bracketed : bracketed.Cuts P := by
  refine ⟨local_bracketed, fun cs e mid behind h _ => ?_⟩
  obtain ⟨inner, hcs, hinner, he⟩ := bracketed_eq_done.mp h
  refine bracketed_eq_done.mpr ⟨inner, ?_, hinner, he⟩
  have hcs : cs ++ behind = '[' :: inner ++ ']' :: mid ++ behind := by simpa using hcs
  exact List.append_cancel_right hcs

/-- A number and a bracketed expression begin with different characters. -/
lemma cuts_numberOrBracketed {p : Parser UInt32} (hp : p.Cuts P)
    (hmiss : ∀ cs, cs.head? = some '[' → p.Misses cs) :
    ((do return .literal (← p)) <|> bracketed : Parser Expression).Cuts P := by
  refine (hp.map _).orElse cuts_bracketed fun cs behind e mid _ h _ => ?_
  obtain ⟨inner, rfl, -⟩ := bracketed_eq_done.mp h
  exact (hmiss _ rfl).bind _

lemma cuts_literal : literal.Cuts P :=
  cuts_numberOrBracketed cuts_hexLiteral fun _ h => (char_misses (by simp [h])).bind _

/-- Whether a word is a register does not depend on what follows the word. -/
lemma register_misses_of_word {as rest rest' : List Char} (has : ∀ c ∈ as, isNameChar c = true)
    (hrest : Stops isNameChar rest) (hrest' : Stops isNameChar rest') (h : register.Misses (as ++ rest)) :
    register.Misses (as ++ rest') := by
  cases hname : isName as with
  | true =>
    obtain ⟨_, h⟩ | ⟨n, unread, hn, hr⟩ := misses_select.mp h
    · cases h.symm.trans (name_of_isName hname hrest)
    · cases hn.symm.trans (name_of_isName hname hrest)
      exact misses_select.mpr (.inr ⟨_, _, name_of_isName hname hrest', hr⟩)
  | false =>
    apply register_misses
    cases as with
    | nil => exact hrest'.mono fun _ => isNameChar_of_isNameStart
    | cons a as =>
      rw [List.forall_mem_cons, ← List.all_eq_true] at has
      rw [isName, has.2, Bool.and_true] at hname
      exact stops_cons.mpr hname

/-- A number is read to the end of the word, so that it is no register without the text behind it if it is
none with it. -/
lemma cuts_address : address.Cuts P := by
  refine (cuts_char '&').andThen fun _ => ?_
  have hvalue : ((do return .literal (← number)) <|> bracketed : Parser Expression).Cuts P :=
    cuts_numberOrBracketed cuts_number fun cs h => number_misses (stops_of_head? h rfl)
  refine ⟨local_register.notBefore.bind fun _ => hvalue.isLocal, fun cs e mid behind h hP => ?_⟩
  obtain ⟨_, _, hnone, h⟩ := bind_eq_done.mp h
  obtain ⟨rfl, hregister⟩ := notBefore_eq_done.mp hnone
  have hdone := hvalue.cut cs e mid behind h hP
  suffices register.Misses cs by rw [bind_of_done (notBefore_of_misses this), hdone]
  obtain hnumber | ⟨-, hbracket⟩ := orElse_eq_done.mp h
  · obtain ⟨v, _, hv, hpure⟩ := bind_eq_done.mp hnumber
    obtain ⟨-, rfl⟩ := pure_eq_done.mp hpure
    obtain ⟨ds, hds, -⟩ := number_eq_done.mp hv
    obtain ⟨-, -, hrest⟩ := digits_eq_done hds
    obtain ⟨rfl, hall, hrest'⟩ := digits_eq_done (cuts_digits.cut cs ds mid behind hds hP)
    rw [List.append_assoc] at hregister
    exact register_misses_of_word (fun c hc => Hex.isNameChar_of_isDigit (hall c hc)) hrest hrest' hregister
  · obtain ⟨inner, rfl, -⟩ := bracketed_eq_done.mp (cuts_bracketed.cut cs e mid behind hbracket hP)
    exact register_misses (stops_cons.mpr rfl)

lemma cuts_operand (s : Slot) : (operand s).Cuts P := by
  cases s with
  | literal | byte => exact cuts_literal.map _
  | address => exact cuts_address.map _
  | register => exact cuts_register.map _
  | pointer => exact (cuts_char '&').andThen fun _ => cuts_register.map _
  | indirect =>
    exact (cuts_char '&').andThen fun _ => (cuts_char '(').andThen fun _ =>
      cuts_register.andThen fun _ => (cuts_char ')').map _

lemma cuts_comma : comma.Cuts P :=
  cuts_spaces.andThen fun _ => (cuts_char ',').andThen fun _ => cuts_spaces

lemma cuts_operands (f : Format) : (operands f).Cuts P := by
  induction f with
  | nil => exact cuts_pure []
  | cons s f ih =>
    by_cases hf : f = []
    · subst hf
      exact (cuts_operand s).map _
    · rw [operands_cons hf]
      exact (cuts_operand s).andThen fun _ => cuts_comma.andThen fun _ => ih.map _

lemma cuts_arguments (f : Format) : (arguments f).Cuts P := by
  unfold arguments
  split_ifs with hf
  · exact cuts_pure []
  · exact (cuts_takeWhile1 isSpace).andThen fun _ => cuts_operands f

lemma cutsMisses_commaAhead : commaAhead.CutsMisses := by
  intro cs behind h
  have hspaces {cs mid : List Char} (hmid : cs.dropWhile isSpace = mid) : spaces cs = .done () mid :=
    map_of_done (by rw [takeWhile, hmid]) fun _ => ()
  by_cases hall : cs.dropWhile isSpace = []
  · exact misses_bind_of_done (hspaces hall) ⟨[], rfl⟩
  · have hbehind : (cs ++ behind).dropWhile isSpace = cs.dropWhile isSpace ++ behind :=
      (Outcome.done.inj (takeWhile_append (.inr hall))).2
    obtain ⟨_, h⟩ | ⟨_, _, hdone, hmiss⟩ := misses_bind.mp h
    · cases h.symm.trans (hspaces rfl)
    · cases hdone.symm.trans (hspaces hbehind)
      exact misses_bind_of_done (hspaces rfl) (cutsMisses_char ',' _ behind hmiss)

lemma cuts_form (op : Opcode) : (form op).Cuts P := by
  refine ⟨local_form op, fun cs i mid behind h hP => ?_⟩
  obtain ⟨hop, hos, hend⟩ := form_eq_done.mp h
  exact form_eq_done.mpr ⟨hop, (cuts_arguments _).cut cs _ mid behind hos hP, cutsMisses_commaAhead _ _ hend⟩

lemma cuts_afterMnemonic (mnemonic : String) : (afterMnemonic mnemonic).Cuts P := by
  refine ⟨local_afterMnemonic mnemonic, fun cs i mid behind h hP => ?_⟩
  obtain ⟨hmem, hform⟩ := afterMnemonic_eq_done.mp h
  exact afterMnemonic_eq_done.mpr ⟨hmem, (cuts_form _).cut cs i mid behind hform hP⟩

lemma cuts_instruction : instruction.Cuts P :=
  cuts_name.andThen fun _ => ((cutsMisses_char ':').notBefore (local_char ':')).andThen fun _ =>
    cuts_afterMnemonic _

end Instructions

section Lists

variable {α : Type} {p item : Parser α}

lemma cuts_many (hp : p.Progresses) (hcuts : p.Cuts fun _ => True) (hmiss : ∀ cs, Closes cs → p.Misses cs) :
    Cuts Closes (p.many hp) := by
  have hlocal := hcuts.isLocal.many hp
  refine ⟨hlocal, fun cs as mid behind h hcloses => ?_⟩
  generalize htext : cs ++ behind = text at h
  fun_induction Parser.many p hp text generalizing cs as with
  | case1 text a rest hdone _ ih =>
    cases hrest : p.many hp rest with
    | done bs unread =>
      rw [hrest] at h
      cases h
      obtain ⟨read, hread⟩ : mid ++ behind <:+ rest := by
        have hsuffix := hlocal rest
        rwa [hrest] at hsuffix
      rw [← List.append_assoc] at hread
      subst htext hread
      rw [many_of_done (hcuts.cut cs a (read ++ mid) behind hdone trivial), ih _ bs rfl hrest]
      rfl
    | miss place =>
      rw [hrest] at h
      cases h
    | fail place reason =>
      rw [hrest] at h
      cases h
  | case2 text place hplace =>
    cases h
    rw [List.append_cancel_right htext]
    exact many_of_misses (hmiss mid hcloses)
  | case3 text place reason hfail => cases h

lemma cuts_separator {P : List Char → Prop} : separator.Cuts P :=
  cuts_trivia.andThen fun _ => (cuts_char ',').andThen fun _ => cuts_trivia

/-- A list that has been closed has no more items, whether they could be read from what follows or not. -/
lemma cuts_listed {P : List Char → Prop} (hcuts : item.Cuts fun _ => True)
    (hmiss : ∀ cs, Closes cs → item.Misses cs) : (listed item hcuts.isLocal).Cuts P := by
  have hmany : Cuts Closes
      (Parser.many (do separator; item) (progresses_separator.bind fun _ => hcuts.isLocal)) :=
    cuts_many _ (cuts_separator.andThen fun _ => hcuts) fun _ hcloses => hcloses.misses_separator.bind _
  have hseparated : (separated item hcuts.isLocal).Cuts Closes := by
    refine (hcuts.andThen fun a => hmany.map (a :: ·)).orElse (cuts_pure []) ?_
    intro cs behind as mid _ h hcloses
    obtain ⟨-, rfl⟩ := pure_eq_done.mp h
    exact (hmiss cs hcloses).bind _
  have hend (as : List α) : (do trivia; char '\x7d'; return as : Parser (List α)).Cuts P :=
    cuts_trivia.andThen fun _ => (cuts_char '\x7d').map fun _ => as
  refine (cuts_char _).andThen fun _ => cuts_trivia.andThen fun _ => hseparated.bind hend ?_
  intro as mid _ _ h _
  obtain ⟨_, _, htrivia, h⟩ := bind_eq_done.mp h
  obtain ⟨_, unread, hchar, _⟩ := bind_eq_done.mp h
  exact ⟨unread, (bind_of_done htrivia _).trans hchar⟩

end Lists

section Declarations

variable {P : List Char → Prop}

lemma cuts_plus : plus.Cuts P := by
  refine ((cuts_char '+').map fun _ => true).orElse (cuts_pure false) ?_
  intro cs behind ex mid h _ _
  obtain h | ⟨_, _, _, _, h⟩ := misses_bind.mp h
  · exact (cutsMisses_char '+' cs behind h).bind _
  · cases h

lemma letters_eq_done {ws cs rest : List Char} {u : Unit} (h : letters ws cs = .done u rest) :
    ∃ as, cs = as ++ rest ∧ lowerCase as = ws := by
  induction ws generalizing cs with
  | nil => exact ⟨[], (pure_eq_done.mp h).2, rfl⟩
  | cons w ws ih =>
    obtain ⟨c, mid, hc, hrest⟩ := bind_eq_done.mp h
    obtain ⟨rfl, hw⟩ := charIf_eq_done.mp hc
    obtain ⟨as, rfl, rfl⟩ := ih hrest
    exact ⟨c :: as, rfl, by rw [lowerCase_cons, eq_of_beq hw]⟩

/-- A text that begins with one keyword does not begin with another. -/
lemma otherWord_of_keyword {v w : String} {cs rest : List Char} {u : Unit} (hv : isName v.toList = true)
    (hne : v ≠ w) (h : keyword v cs = .done u rest) : OtherWord w cs := by
  obtain ⟨_, mid, hletters, hend⟩ := bind_eq_done.mp h
  obtain ⟨rfl, hmiss⟩ := notBefore_eq_done.mp hend
  obtain ⟨as, rfl, has⟩ := letters_eq_done hletters
  refine ⟨as, _, rfl, ?_, (stops_of_misses_charIf hmiss).mono fun c hc => by rw [hc, Bool.true_or], .inl ?_⟩
  · rw [← isName_lowerCase, has, hv]
  · rw [has]
    exact fun heq => hne (String.toList_inj.mp heq)

lemma cuts_dataWidth : dataWidth.Cuts P := by
  refine ((cuts_keyword _).map fun _ => DataWidth.byte).orElse
    ((cuts_keyword _).map fun _ => DataWidth.word) ?_
  intro cs _ _ _ _ h _
  obtain ⟨_, _, hword, _⟩ := bind_eq_done.mp h
  have hother : OtherWord "data8" cs := otherWord_of_keyword (by decide) (by decide) hword
  exact (hother.misses (by decide)).bind _

lemma cuts_declaredName : declaredName.Cuts P := (cuts_takeWhile1 isBlank).andThen fun _ => cuts_name

lemma cuts_assignment : assignment.Cuts P :=
  cuts_blanks.andThen fun _ => (cuts_char '=').andThen fun _ => cuts_blanks

lemma cuts_member : member.Cuts P :=
  cuts_name.andThen fun _ => cuts_trivia.andThen fun _ => (cuts_char ':').andThen fun _ =>
    cuts_trivia.andThen fun _ => cuts_hexLiteral.map _

lemma cuts_declaration {κ : Type} {k : Parser κ} {d : Declaration} {f : Bool → κ → String → Parser Statement}
    (hk : k.Cuts fun _ => True) (hf : ∀ ex a n, (f ex a n).Cuts P) :
    (do let ex ← plus; let a ← k; commit d (do let n ← declaredName; f ex a n) : Parser Statement).Cuts P :=
  cuts_plus.andThen fun ex => hk.andThen fun a => (cuts_declaredName.andThen (hf ex a)).commit d

lemma cuts_constant : constant.Cuts P :=
  cuts_declaration (cuts_keyword _) fun _ _ _ => cuts_assignment.andThen fun _ => cuts_hexLiteral.map _

lemma cuts_data : data.Cuts P :=
  cuts_declaration cuts_dataWidth fun _ _ _ => cuts_assignment.andThen fun _ =>
    (cuts_listed cuts_hexLiteral fun _ => Closes.misses_hexLiteral).map _

lemma cuts_struct : struct.Cuts P :=
  cuts_declaration (cuts_keyword _) fun _ _ _ => cuts_trivia.andThen fun _ =>
    (cuts_listed cuts_member fun _ => Closes.misses_member).map _

end Declarations

section Statements

variable {P : List Char → Prop} {cs rest : List Char}

lemma plus_eq_done {ex : Bool} (h : plus cs = .done ex rest) : cs = (exportMark ex).toList ++ rest := by
  obtain h | ⟨-, h⟩ := orElse_eq_done.mp h
  · obtain ⟨_, _, hmark, hpure⟩ := bind_eq_done.mp h
    obtain ⟨rfl, rfl⟩ := pure_eq_done.mp hpure
    exact char_eq_done.mp hmark
  · obtain ⟨rfl, rfl⟩ := pure_eq_done.mp h
    rfl

/-- A declaration begins with its mark and its keyword. -/
lemma otherWord_of_declaration {v : String} (hv : isName v.toList = true) {f : Bool → Parser Statement}
    {s : Statement} (h : (do let ex ← plus; keyword v; f ex : Parser Statement) cs = .done s rest) :
    ∃ ex text, cs = (exportMark ex).toList ++ text ∧ ∀ w, v ≠ w → OtherWord w text := by
  obtain ⟨ex, text, hplus, h⟩ := bind_eq_done.mp h
  obtain ⟨_, _, hkeyword, -⟩ := bind_eq_done.mp h
  exact ⟨ex, text, plus_eq_done hplus, fun w hne => otherWord_of_keyword hv hne hkeyword⟩

lemma name_text {n : String} (h : name cs = .done n rest) :
    cs = n.toList ++ rest ∧ isName n.toList = true ∧ Stops isNameChar rest := by
  have hn := yields_name cs n rest h
  obtain ⟨c, ds, rfl, -, rfl, rfl⟩ := name_eq_done.mp h
  rw [String.toList_ofList] at hn ⊢
  exact ⟨by rw [List.cons_append, List.takeWhile_append_dropWhile], hn, stops_dropWhile isNameChar ds⟩

lemma otherWord_of_instruction {i : Instruction Expression} (h : instruction cs = .done i rest) {w : String}
    (hw : w ∈ ["data8", "data16", "structure", "constant"]) : OtherWord w cs := by
  obtain ⟨n, mid, hn, hlabel⟩ := bind_eq_done.mp h
  obtain ⟨_, _, _, hi⟩ := bind_eq_done.mp hlabel
  obtain ⟨rfl, hname, hmid⟩ := name_text hn
  have hopcode := Opcode.mem_ofMnemonic.mp (afterMnemonic_eq_done.mp hi).1
  refine ⟨n.toList, mid, rfl, hname, hmid, .inl fun heq => mnemonic_ne_keyword i.opcode hw ?_⟩
  exact String.toList_inj.mp (hopcode.trans heq)

/-- The mark of a label tells it from keywords and mnemonics. -/
lemma statement_of_label_done {s : Statement} (h : label cs = .done s rest) :
    statement cs = .done s rest := by
  obtain ⟨n, mid, hn, hcolon⟩ := bind_eq_done.mp h
  obtain ⟨_, end', hchar, -⟩ := bind_eq_done.mp hcolon
  obtain ⟨htext, hname, hmid⟩ := name_text hn
  obtain rfl := char_eq_done.mp hchar
  have hinstruction : instruction.Misses cs :=
    misses_bind_of_done hn ((misses_notBefore hchar).bind _)
  rw [statement_of_otherWord fun w _ => ⟨n.toList, _, htext, hname, hmid, .inr rfl⟩,
    orElse_of_misses (hinstruction.bind _), h]

/-- A statement is read the same if the text ends behind it. -/
lemma cuts_statement : statement.Cuts P := by
  refine ⟨local_statement, fun cs s mid behind h hP => ?_⟩
  obtain h | ⟨-, h⟩ := orElse_eq_done.mp h
  · exact orElse_of_done (cuts_data.cut cs s mid behind h hP) _
  obtain h | ⟨-, h⟩ := orElse_eq_done.mp h
  · have hdone := cuts_struct.cut cs s mid behind h hP
    obtain ⟨ex, text, rfl, hother⟩ := otherWord_of_declaration (by decide) hdone
    refine (orElse_of_misses (data_misses (hother _ (by decide)) (hother _ (by decide)) ex) _).trans ?_
    exact orElse_of_done hdone _
  obtain h | ⟨-, h⟩ := orElse_eq_done.mp h
  · have hdone := cuts_constant.cut cs s mid behind h hP
    obtain ⟨ex, text, rfl, hother⟩ := otherWord_of_declaration (by decide) hdone
    refine (orElse_of_misses (data_misses (hother _ (by decide)) (hother _ (by decide)) ex) _).trans ?_
    refine (orElse_of_misses (struct_misses (hother _ (by decide)) ex) _).trans ?_
    exact orElse_of_done hdone _
  obtain h | ⟨-, h⟩ := orElse_eq_done.mp h
  · have hdone := (cuts_instruction.map Statement.instruction).cut cs s mid behind h hP
    obtain ⟨i, _, hi, -⟩ := bind_eq_done.mp hdone
    rw [statement_of_otherWord fun w hw => otherWord_of_instruction hi hw, orElse_of_done hdone]
  · have hlabel : label.Cuts P := cuts_name.andThen fun n => (cuts_char ':').map fun _ => Statement.label n
    exact statement_of_label_done (hlabel.cut cs s mid behind h hP)

end Statements

end Grammar
end Machine16
