import Machine16.Proofs.LaterLines
import Machine16.Proofs.Locations
import Machine16.Proofs.Nodes
import Machine16.Proofs.OperandForms

/-! Programs are read line by line. What has been read of a text stays the same if more lines are added
to it, and the nodes of these lines follow, as they would be read on their own. -/
namespace Machine16

namespace Grammar

open Machine16.Parser

section Instructions

variable {P : List Char → Prop}

/-- An open bracket may be closed on a later line, so that only a success is kept. -/
lemma keeps_bracketed : bracketed.Keeps P := by
  intro cs e unread later _ h _
  obtain ⟨inner, rfl, hinner, he⟩ := bracketed_eq_done.mp h
  exact bracketed_eq_done.mpr ⟨inner, by simp, hinner, he⟩

lemma keeps_literal : literal.Keeps P := by
  have hnumber : (do return .literal (← hexLiteral) : Parser Expression).InLine :=
    inLine_hexLiteral.bind fun _ => inLine_pure _
  exact (hnumber.keeps P).orElse hnumber.keepsMisses keeps_bracketed

lemma keeps_address : address.Keeps P := by
  have hnumber : (do return .literal (← number) : Parser Expression).InLine :=
    inLine_number.bind fun _ => inLine_pure _
  exact (inLine_char (by decide)).bind_keeps fun _ => inLine_register.notBefore.bind_keeps fun _ =>
    (hnumber.keeps P).orElse hnumber.keepsMisses keeps_bracketed

lemma keeps_operand (s : Slot) : (operand s).Keeps P := by
  cases s with
  | literal | byte => exact keeps_literal.map _
  | address => exact keeps_address.map _
  | register => exact (inLine_register.keeps P).map _
  | pointer =>
    exact (inLine_char (by decide)).bind_keeps fun _ => (inLine_register.keeps P).map _
  | indirect =>
    exact (inLine_char (by decide)).bind_keeps fun _ => (inLine_char (by decide)).bind_keeps fun _ =>
      inLine_register.bind_keeps fun _ => ((inLine_char (by decide)).keeps P).map _

lemma keeps_operands (f : Format) : (operands f).Keeps P := by
  induction f with
  | nil => exact (inLine_pure _).keeps P
  | cons s f ih =>
    by_cases hf : f = []
    · subst hf
      exact (keeps_operand s).map _
    · rw [operands_cons hf]
      exact (keeps_operand (P := fun _ => True) s).bind
        (fun _ => inLine_comma.bind_keeps fun _ => ih.map _) fun _ _ _ _ _ _ => trivial

lemma keeps_arguments (f : Format) : (arguments f).Keeps P := by
  unfold arguments
  split_ifs with hf
  · exact (inLine_pure _).keeps P
  · exact (inLine_takeWhile1 (by decide)).bind_keeps fun _ => keeps_operands f

lemma inLine_commaAhead : commaAhead.InLine := inLine_spaces.bind fun _ => inLine_char (by decide)

lemma keeps_form (op : Opcode) : (form op).Keeps P := by
  intro cs i unread later hlater h hP
  rw [form_eq_done] at h ⊢
  obtain ⟨hop, hos, hend⟩ := h
  exact ⟨hop, keeps_arguments _ _ _ _ _ hlater hos hP, inLine_commaAhead.keepsMisses _ _ hlater hend⟩

lemma keeps_afterMnemonic (mnemonic : String) : (afterMnemonic mnemonic).Keeps P := by
  intro cs i unread later hlater h hP
  rw [afterMnemonic_eq_done] at h ⊢
  exact ⟨h.1, keeps_form _ _ _ _ _ hlater h.2 hP⟩

lemma keepsMisses_afterMnemonic (mnemonic : String) : (afterMnemonic mnemonic).KeepsMisses := by
  unfold afterMnemonic
  split
  · exact fun cs later _ _ => ⟨cs ++ later, rfl⟩
  · intro cs later _ h
    obtain ⟨-, hfail⟩ := misses_orElse.mp h
    obtain ⟨place, hfail⟩ := hfail
    cases hfail

lemma keeps_instruction : instruction.Keeps P :=
  inLine_name.bind_keeps fun _ => (inLine_char (by decide)).notBefore.bind_keeps fun _ =>
    keeps_afterMnemonic _

lemma keepsMisses_instruction : instruction.KeepsMisses :=
  inLine_name.bind_keepsMisses fun _ => (inLine_char (by decide)).notBefore.bind_keepsMisses fun _ =>
    keepsMisses_afterMnemonic _

end Instructions

section Declarations

/-- The end of a list in braces. -/
def closing : Parser Unit := do
  trivia
  char '\x7d'

/-- A list may end here. -/
def Closes (cs : List Char) : Prop := ∃ unread, closing cs = .done () unread

lemma keeps_closing {P : List Char → Prop} : closing.Keeps P :=
  keeps_trivia.bind_progresses (fun _ => (inLine_char (by decide)).keeps P) fun _ => progresses_char _

lemma Closes.append {cs later : List Char} (h : Closes cs) (hlater : LaterLines later) :
    Closes (cs ++ later) := by
  obtain ⟨unread, h⟩ := h
  exact ⟨unread ++ later, keeps_closing (P := fun _ => True) cs () unread later hlater h trivial⟩

/-- After blanks and comments comes the brace. -/
lemma Closes.skipTrivia {cs : List Char} (h : Closes cs) :
    ∃ unread, skipTrivia false cs = '\x7d' :: unread := by
  obtain ⟨unread, h⟩ := h
  obtain ⟨_, mid, htrivia, hchar⟩ := bind_eq_done.mp h
  cases htrivia
  exact ⟨unread, char_eq_done.mp hchar⟩

lemma Closes.misses_separator {cs : List Char} (h : Closes cs) : separator.Misses cs := by
  obtain ⟨unread, h⟩ := h.skipTrivia
  have htrivia : trivia cs = .done () (Grammar.skipTrivia false cs) := rfl
  refine misses_bind_of_done htrivia ?_
  rw [h]
  exact (char_misses (by simp)).bind _

/-- Where a list closes the text begins with a blank, a comment or the brace. -/
lemma Closes.stops {f : Char → Bool} (hblank : ∀ c, isBlank c = true → f c = false)
    (hcomment : f ';' = false) (hbrace : f '\x7d' = false) {cs : List Char} (h : Closes cs) :
    Stops f cs := by
  obtain ⟨unread, h⟩ := h.skipTrivia
  obtain - | ⟨d, cs⟩ := cs
  · cases h
  refine stops_cons.mpr ?_
  rw [Grammar.skipTrivia, if_neg Bool.false_ne_true] at h
  split_ifs at h with hd hd'
  · exact hblank d hd
  · rwa [eq_of_beq hd']
  · cases h
    exact hbrace

lemma keeps_separator : separator.Keeps (· ≠ []) :=
  keeps_trivia.bind_progresses (fun _ => (inLine_char (by decide)).bind_keeps fun _ => keeps_trivia)
    fun _ => (progresses_char _).bind fun _ => local_trivia

variable {α : Type} {item : Parser α}

lemma keeps_many {p : Parser α} (hp : p.Progresses) (hkeeps : p.Keeps fun _ => True)
    (hmiss : ∀ cs, Closes cs → p.Misses cs) : Keeps Closes (p.many hp) := by
  intro cs as unread later hlater h hcloses
  fun_induction Parser.many p hp cs generalizing as with
  | case1 cs a mid hdone _ ih =>
    cases hrest : p.many hp mid with
    | done bs u =>
      rw [hrest] at h ih
      cases h
      rw [many_of_done (hkeeps cs a mid later hlater hdone trivial), ih bs rfl]
      rfl
    | miss place =>
      rw [hrest] at h
      cases h
    | fail place reason =>
      rw [hrest] at h
      cases h
  | case2 cs place hplace =>
    cases h
    exact many_of_misses (hmiss _ (hcloses.append hlater))
  | case3 cs place reason hfail => cases h

/-- A list that has been closed has no more items, whatever lines follow. -/
lemma keeps_listed (hlocal : item.Local) (hprogress : item.Progresses)
    (hkeeps : item.Keeps fun _ => True) (hmiss : ∀ cs, Closes cs → item.Misses cs) :
    (listed item hlocal).Keeps fun _ => True := by
  have hmany : Keeps Closes
      (Parser.many (do separator; item) (progresses_separator.bind fun _ => hlocal)) :=
    keeps_many _ (keeps_separator.bind_progresses (fun _ => hkeeps) fun _ => hprogress)
      fun _ hcloses => hcloses.misses_separator.bind _
  have hseparated : (separated item hlocal).Keeps Closes := by
    intro cs as unread later hlater h hcloses
    obtain h | ⟨hnone, h⟩ := orElse_eq_done.mp h
    · obtain ⟨a, mid, ha, h⟩ := bind_eq_done.mp h
      refine orElse_of_done ((bind_of_done (hkeeps cs a mid later hlater ha trivial) _).trans ?_) _
      exact (hmany.map (a :: ·)) mid as unread later hlater h hcloses
    · obtain ⟨rfl, rfl⟩ := pure_eq_done.mp h
      exact orElse_of_misses ((hmiss _ (hcloses.append hlater)).bind _) _
  have hend (as : List α) : (do trivia; char '\x7d'; return as : Parser (List α)).Keeps fun _ => True :=
    keeps_trivia.bind_progresses (fun _ => (inLine_char (by decide)).bind_keeps fun _ =>
      (inLine_pure as).keeps _) fun _ => (progresses_char _).bind fun _ => local_pure _
  refine (inLine_char (by decide)).bind_keeps fun _ => keeps_trivia.bind_progresses (fun _ => ?_) fun _ => ?_
  · refine hseparated.bind hend fun as mid _ _ h _ => ?_
    obtain ⟨_, _, htrivia, h⟩ := bind_eq_done.mp h
    obtain ⟨_, unread, hchar, _⟩ := bind_eq_done.mp h
    exact ⟨unread, (bind_of_done htrivia _).trans hchar⟩
  · exact (local_separated hlocal).bind_progresses fun _ => local_trivia.bind_progresses fun _ =>
      (progresses_char _).bind fun _ => local_pure _

lemma progresses_listed (hlocal : item.Local) : (listed item hlocal).Progresses :=
  (progresses_char _).bind fun _ => local_trivia.bind fun _ => (local_separated hlocal).bind fun _ =>
    local_trivia.bind fun _ => (local_char _).bind fun _ => local_pure _

lemma keeps_declaredName : declaredName.Keeps fun _ => True :=
  (keeps_takeWhile1 isBlank).bind_progresses (fun _ => inLine_name.keeps _) fun _ => progresses_name

lemma keeps_assignment : assignment.Keeps (· ≠ []) :=
  keeps_blanks.bind_progresses (fun _ => (inLine_char (by decide)).bind_keeps fun _ => keeps_blanks)
    fun _ => (progresses_char _).bind fun _ => local_blanks

lemma progresses_hexLiteral : hexLiteral.Progresses := (progresses_char _).bind fun _ => local_number

lemma progresses_member : member.Progresses :=
  progresses_name.bind fun _ => local_trivia.bind fun _ => (local_char _).bind fun _ =>
    local_trivia.bind fun _ => local_hexLiteral.bind fun _ => local_pure _

lemma keeps_member : member.Keeps fun _ => True := by
  refine inLine_name.bind_keeps fun _ => keeps_trivia.bind_progresses
    (fun _ => (inLine_char (by decide)).bind_keeps fun _ => keeps_trivia.bind_progresses
      (fun _ => (inLine_hexLiteral.keeps _).map _) fun _ => progresses_hexLiteral.bind fun _ => local_pure _)
    fun _ => (progresses_char _).bind fun _ => local_trivia.bind fun _ => local_hexLiteral.bind fun _ =>
      local_pure _

lemma ne_of_isBlank {c : Char} (h : isBlank c = true) : isNameStart c = false ∧ c ≠ '$' := by
  simp only [isBlank, isSpace, Bool.or_eq_true, beq_iff_eq] at h
  obtain ((rfl | rfl) | rfl) | rfl := h <;> decide

lemma Closes.misses_hexLiteral {cs : List Char} (h : Closes cs) : hexLiteral.Misses cs := by
  refine (char_misses fun hhead => ?_).bind _
  have hdollar : ('$' == '$') = false :=
    h.stops (f := (· == '$')) (fun c hc => by simpa using (ne_of_isBlank hc).2) rfl rfl '$' hhead
  cases hdollar

lemma Closes.misses_member {cs : List Char} (h : Closes cs) : member.Misses cs :=
  (name_misses (h.stops (fun _ hc => (ne_of_isBlank hc).1) rfl rfl)).bind _

lemma keeps_values : (listed hexLiteral local_hexLiteral).Keeps fun _ => True :=
  keeps_listed local_hexLiteral progresses_hexLiteral (inLine_hexLiteral.keeps _) fun _ =>
    Closes.misses_hexLiteral

lemma keeps_members : (listed member local_member).Keeps fun _ => True :=
  keeps_listed local_member progresses_member keeps_member fun _ => Closes.misses_member

section

variable {κ : Type} {k : Parser κ} {d : Declaration} {f : Bool → κ → String → Parser Statement}

/-- Later lines do not change a declaration unless they change what stands behind its name. -/
lemma keeps_declaration (hk : k.InLine) (hf : ∀ ex a n, (f ex a n).Keeps fun _ => True) :
    (do let ex ← plus; let a ← k; commit d (do let n ← declaredName; f ex a n) : Parser Statement).Keeps
      fun _ => True :=
  inLine_plus.bind_keeps fun ex => hk.bind_keeps fun a =>
    (keeps_declaredName.bind (hf ex a) fun _ _ _ _ _ _ => trivial).commit d

lemma keepsMisses_declaration (hk : k.InLine) :
    (do let ex ← plus; let a ← k; commit d (do let n ← declaredName; f ex a n) :
      Parser Statement).KeepsMisses :=
  inLine_plus.bind_keepsMisses fun _ => hk.bind_keepsMisses fun _ => keepsMisses_commit _ _

end

lemma keeps_constant : constant.Keeps fun _ => True :=
  keeps_declaration (inLine_keyword (by decide)) fun _ _ _ =>
    keeps_assignment.bind_progresses (fun _ => (inLine_hexLiteral.keeps _).map _) fun _ =>
      progresses_hexLiteral.bind fun _ => local_pure _

lemma keeps_data : data.Keeps fun _ => True :=
  keeps_declaration inLine_dataWidth fun _ _ _ =>
    keeps_assignment.bind_progresses (fun _ => keeps_values.map _) fun _ =>
      (progresses_listed _).bind fun _ => local_pure _

lemma keeps_struct : struct.Keeps fun _ => True :=
  keeps_declaration (inLine_keyword (by decide)) fun _ _ _ =>
    keeps_trivia.bind_progresses (fun _ => keeps_members.map _) fun _ =>
      (progresses_listed _).bind fun _ => local_pure _

lemma keepsMisses_constant : constant.KeepsMisses := keepsMisses_declaration (inLine_keyword (by decide))

lemma keepsMisses_data : data.KeepsMisses := keepsMisses_declaration inLine_dataWidth

lemma keepsMisses_struct : struct.KeepsMisses := keepsMisses_declaration (inLine_keyword (by decide))

end Declarations

/-- A statement that has been read is the same statement whatever lines follow. -/
lemma keeps_statement : statement.Keeps fun _ => True := by
  have hinstruction : (do return .instruction (← instruction) : Parser Statement).KeepsMisses := by
    intro cs later hlater h
    obtain h | ⟨_, _, _, _, h⟩ := misses_bind.mp h
    · exact (keepsMisses_instruction cs later hlater h).bind _
    · cases h
  exact keeps_data.orElse keepsMisses_data <| keeps_struct.orElse keepsMisses_struct <|
    keeps_constant.orElse keepsMisses_constant <| (keeps_instruction.map _).orElse hinstruction <|
      inLine_label.keeps _

end Grammar

/-- The node as it lies in a text with more in front of it. -/
def Node.shift (bytes : Nat) (n : Node) : Node :=
  { n with span := ⟨n.span.start + bytes, n.span.stop + bytes⟩ }

/-- The error as it lies in a text with more lines in front of it. -/
def SyntaxError.shift (lines : Nat) (e : SyntaxError) : SyntaxError :=
  { e with location := ⟨e.location.line + lines, e.location.column⟩ }

namespace SyntaxError

/-- Errors count lines and columns in a way of their own, to the same numbers. -/
lemma advance_eq_next (l : Location) (c : Char) : advance l c = l.next c := by
  rw [advance, Location.next]
  split_ifs <;> rfl

lemma locate_of_append (read unread : List Char) (reason : Reason) :
    locate (read ++ unread) unread reason = ⟨Location.after ⟨1, 1⟩ read, reason, excerptOf unread⟩ := by
  have hstart : byteLength (read ++ unread) - byteLength unread = byteLength read := by
    rw [byteLength_append, Nat.add_sub_cancel]
  have hcount : advance = Location.next := funext₂ advance_eq_next
  simp only [locate, hstart, takeBytes_append, dropBytes_append, hcount, Location.after]

lemma locate_append {source unread : List Char} (h : unread <:+ source) (before : List Char)
    (reason : Reason) :
    locate (before ++ '\n' :: source) unread reason =
      (locate source unread reason).shift (before.count '\n' + 1) := by
  obtain ⟨read, rfl⟩ := h
  have hlong : before ++ '\n' :: (read ++ unread) = (before ++ ['\n'] ++ read) ++ unread := by simp
  rw [hlong, locate_of_append, locate_of_append, Location.after_append, Location.after_newline,
    Location.after_add_line ⟨1, 1⟩]
  rfl

end SyntaxError

namespace Program

open Grammar

lemma skipTrivia_line {inComment : Bool} {cs : List Char} (h : skipTrivia inComment cs = [])
    (later : List Char) : skipTrivia inComment (cs ++ '\n' :: later) = skipTrivia false later := by
  induction cs generalizing inComment with
  | nil => cases inComment <;> rfl
  | cons c cs ih =>
    rw [List.cons_append, skipTrivia]
    rw [skipTrivia] at h
    split_ifs at h ⊢ with hcomment hblank hstart
    · exact ih h
    · exact ih h
    · exact ih h

lemma byteLength_line (cs later : List Char) :
    byteLength (cs ++ '\n' :: later) = byteLength cs + (1 + byteLength later) :=
  byteLength_append cs ('\n' :: later)

/-- After the nodes of a text come those of the lines behind it. -/
lemma parseAt_append_lines {stop offset : Nat} {cs : List Char} {p : Program} (h : Nodes stop cs p)
    (hstop : offset + byteLength cs = stop) (later : List Char) :
    parseAt offset (cs ++ '\n' :: later) = (p ++ ·) <$> parseAt (stop + 1) later := by
  induction h generalizing offset with
  | @nil cs hnone =>
    have hend : offset + byteLength (cs ++ '\n' :: later) = stop + 1 + byteLength later := by
      rw [byteLength_line]
      omega
    rw [parseAt_congr (skipTrivia_line hnone later) hend]
    cases parseAt (stop + 1) later <;> rfl
  | @cons cs start s unread p hstart hs _ ih =>
    obtain ⟨hcs, hrest⟩ := byteLength_unread_le hstart hs
    have hne : skipTrivia false cs ≠ [] := by
      intro hnil
      rw [hnil] at hstart
      subst hstart
      cases hs
    have hstart' : skipTrivia false (cs ++ '\n' :: later) = start ++ '\n' :: later := by
      rw [skipTrivia_append hne, hstart]
    have hs' := keeps_statement _ _ _ ('\n' :: later) rfl hs trivial
    have hplace (u : List Char) :
        stop + (1 + byteLength later) - byteLength (u ++ '\n' :: later) = stop - byteLength u := by
      rw [byteLength_line]
      omega
    have hend : offset + byteLength (cs ++ '\n' :: later) = stop + (1 + byteLength later) := by
      rw [byteLength_line]
      omega
    rw [parseAt_of_done hstart' hs' hend,
      hplace, hplace, ih (by omega)]
    cases parseAt (stop + 1) later <;> rfl

/-- The offset of a text only moves its nodes. -/
lemma parseAt_shift (offset bytes : Nat) (cs : List Char) :
    parseAt (offset + bytes) cs = List.map (Node.shift bytes) <$> parseAt offset cs := by
  induction hlength : cs.length using Nat.strongRecOn generalizing offset cs with
  | ind length ih =>
    by_cases hnil : skipTrivia false cs = []
    · rw [parseAt_of_nil hnil, parseAt_of_nil hnil]
      rfl
    cases hs : statement (skipTrivia false cs) with
    | done s unread =>
      obtain ⟨hcs, hrest⟩ := byteLength_unread_le rfl hs
      have hshorter := progresses_statement _ _ _ hs
      have hle := (skipTrivia_suffix false cs).length_le
      have hstop : offset + bytes + byteLength cs = offset + byteLength cs + bytes := by omega
      have hplace {u : List Char} (hu : byteLength u ≤ byteLength cs) :
          offset + byteLength cs + bytes - byteLength u = offset + byteLength cs - byteLength u + bytes := by
        omega
      rw [parseAt_of_done rfl hs hstop, parseAt_of_done rfl hs rfl, hplace hcs, hplace (hrest.trans hcs),
        ih unread.length (by omega) _ unread rfl]
      cases parseAt (offset + byteLength cs - byteLength unread) unread <;> rfl
    | miss place =>
      rw [parseAt_of_miss hnil hs, parseAt_of_miss hnil hs]
      rfl
    | fail place reason =>
      rw [parseAt_of_fail hs, parseAt_of_fail hs]
      rfl

/-- An error lies in the text. -/
lemma suffix_of_parseAt_eq_error {offset : Nat} {cs place : List Char} {reason : Reason}
    (h : parseAt offset cs = .error (place, reason)) : place <:+ cs := by
  obtain ⟨p, start, hrun, -, hstart⟩ := (parseAt_eq_error rfl).mp h
  exact hstart.suffix.trans hrun.suffix

/-- Programs are read line by line. If a text can be read, the text with more lines behind it is read
to the same nodes and those of the lines, which are moved by the length of the text and the line break.
If the lines cannot be read, the error is theirs, further down by the lines of the text. -/
theorem parse_append_lines {s : String} {p : Program} (h : parse s = .ok p) (lines : String) :
    (∀ q, parse lines = .ok q →
      parse (s ++ "\n" ++ lines) = .ok (p ++ q.map (Node.shift (s.utf8ByteSize + 1)))) ∧
    (∀ e, parse lines = .error e →
      parse (s ++ "\n" ++ lines) = .error (e.shift (s.toList.count '\n' + 1))) := by
  have htext : (s ++ "\n" ++ lines).toList = s.toList ++ '\n' :: lines.toList := by simp
  have hjoined : parseAt 0 (s ++ "\n" ++ lines).toList =
      (p ++ List.map (Node.shift (s.utf8ByteSize + 1)) ·) <$> parseAt 0 lines.toList := by
    have hstop : 0 + byteLength s.toList = s.utf8ByteSize := by rw [Nat.zero_add, byteLength_toList]
    have hmoved := parseAt_shift 0 (s.utf8ByteSize + 1) lines.toList
    rw [Nat.zero_add] at hmoved
    rw [htext, parseAt_append_lines (parse_eq_ok.mp h) hstop, hmoved]
    cases parseAt 0 lines.toList <;> rfl
  constructor
  · intro q hq
    have hlines : parseAt 0 lines.toList = .ok q :=
      (parseAt_eq_ok (by rw [Nat.zero_add, byteLength_toList])).mpr (parse_eq_ok.mp hq)
    rw [hlines] at hjoined
    rw [parse, hjoined]
    rfl
  · intro e he
    obtain ⟨place, reason, herror, rfl⟩ := parse_eq_error.mp he
    refine parse_eq_error.mpr ⟨place, reason, ?_, ?_⟩
    · rw [hjoined, herror]
      rfl
    · rw [htext, SyntaxError.locate_append (suffix_of_parseAt_eq_error herror)]

theorem parse_append_lines_sample :
    parse ("start:" ++ "\n" ++ "hlt") =
      .ok [⟨.label "start", ⟨0, 6⟩⟩, ⟨.instruction ⟨.hlt, []⟩, ⟨7, 10⟩⟩] ∧
    parse ("start:" ++ "\n" ++ "?") = .error ⟨⟨2, 1⟩, ⟨.unexpectedInput, none⟩, "?"⟩ := by
  have h : parse "start:" = .ok [⟨.label "start", ⟨0, 6⟩⟩] := by decide +kernel
  exact ⟨(parse_append_lines h "hlt").1 [⟨.instruction ⟨.hlt, []⟩, ⟨0, 3⟩⟩] (by decide +kernel),
    (parse_append_lines h "?").2 ⟨⟨1, 1⟩, ⟨.unexpectedInput, none⟩, "?"⟩ (by decide +kernel)⟩

end Program
end Machine16
