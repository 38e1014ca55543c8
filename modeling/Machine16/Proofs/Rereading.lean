import Machine16.Proofs.Formats
import Machine16.Proofs.Lines
import Machine16.Proofs.Printing
import Machine16.Proofs.WellFormed

/-! Parsing undoes printing. -/
namespace Machine16

namespace Grammar

open Machine16.Parser

section Operands

variable {cs rest : List Char}

lemma hexLiteral_of_spelled {k : Nat} {v : UInt32}
    (h : Spelled [.exact "$", .word (Hex.format k v.toNat)] cs) (hrest : Stops isNameChar rest) :
    hexLiteral (cs ++ rest) = .done v rest := by
  obtain ⟨_, rfl, as, _, rfl, has, rfl⟩ := h
  rw [Hex.toList_format] at has
  rw [List.append_nil]
  exact (bind_of_done (char_cons '$' (as ++ rest)) _).trans (number_of_lowerCase has hrest)

lemma bracketed_of_spelled {e : Expression} (he : e.WellFormed)
    (h : Spelled (.exact "[" :: (e.pieces ++ [.exact "]"])) cs) :
    bracketed (cs ++ rest) = .done e rest := by
  obtain ⟨_, rfl, h⟩ := h
  obtain ⟨inner, _, rfl, hinner, _, rfl, rfl⟩ := Spelled.append_iff.mp h
  exact bracketed_eq_done.mpr ⟨inner, by simp, Expression.bracket_not_mem he hinner,
    Expression.parse_of_spelled he hinner⟩

open Operand in
lemma literal_of_spelled {e : Expression} (he : e.WellFormed) (h : Spelled (literalPieces e) cs)
    (hrest : Stops isNameChar rest) : literal (cs ++ rest) = .done e rest := by
  have hbracket (h : Spelled (.exact "[" :: (e.pieces ++ [.exact "]"])) cs) :
      literal (cs ++ rest) = .done e rest := by
    have hmiss : hexLiteral.Misses (cs ++ rest) := by
      obtain ⟨_, rfl, -⟩ := h
      exact (char_misses (by simp)).bind _
    exact (orElse_of_misses (hmiss.bind _) _).trans (bracketed_of_spelled he h)
  cases e with
  | literal v => exact orElse_of_done (map_of_done (hexLiteral_of_spelled h hrest) Expression.literal) _
  | symbol n | member s n m | binary op l r => exact hbracket h

open Operand in
/-- A number of four digits behind the mark is not a pointer, even if it could be a name. -/
lemma address_of_spelled {e : Expression} (he : e.WellFormed) (h : Spelled (addressPieces e) cs)
    (hrest : Stops isNameChar rest) : address (cs ++ rest) = .done e rest := by
  have hbracket (h : Spelled (.exact "&" :: .exact "[" :: (e.pieces ++ [.exact "]"])) cs) :
      address (cs ++ rest) = .done e rest := by
    obtain ⟨cs, rfl, h'⟩ := h
    have hhead : (cs ++ rest).head? = some '[' := by
      obtain ⟨_, rfl, -⟩ := h'
      rfl
    have hregister : register.Misses (cs ++ rest) := register_misses (stops_of_head? hhead rfl)
    have hnumber : number.Misses (cs ++ rest) := number_misses (stops_of_head? hhead rfl)
    refine (bind_of_done (char_cons '&' (cs ++ rest)) _).trans ?_
    refine (bind_of_done (notBefore_of_misses hregister) _).trans ?_
    exact (orElse_of_misses (hnumber.bind _) _).trans (bracketed_of_spelled he h')
  cases e with
  | literal v =>
    obtain ⟨_, rfl, as, _, rfl, has, rfl⟩ := h
    rw [Hex.toList_format] at has
    have hlength : 3 < as.length := by
      have hlength := congrArg List.length has
      rw [length_lowerCase, length_lowerCase, Hex.length_digits] at hlength
      omega
    have hname : ∀ c ∈ as, isNameChar c = true := fun c hc =>
      Hex.isNameChar_of_isDigit ((isDigit_of_lowerCase has).2.1 c hc)
    rw [List.append_nil]
    refine (bind_of_done (char_cons '&' (as ++ rest)) _).trans ?_
    refine (bind_of_done (notBefore_of_misses (register_misses_of_length hlength hname hrest)) _).trans ?_
    exact orElse_of_done (map_of_done (number_of_lowerCase has hrest) Expression.literal) _
  | symbol n | member s n m | binary op l r => exact hbracket h

lemma operand_of_spelled {o : Operand Expression} (ho : o.WellFormed) (h : Spelled o.pieces cs)
    (hrest : Stops isNameChar rest) : operand o.slot (cs ++ rest) = .done o rest := by
  cases o with
  | literal e => exact map_of_done (literal_of_spelled ho h hrest) Operand.literal
  | byte e => exact map_of_done (literal_of_spelled ho h hrest) Operand.byte
  | address e => exact map_of_done (address_of_spelled ho h hrest) Operand.address
  | register r =>
    obtain ⟨as, _, rfl, has, rfl⟩ := h
    rw [List.append_nil]
    exact map_of_done (register_of_lowerCase has hrest) Operand.register
  | pointer r =>
    obtain ⟨_, rfl, as, _, rfl, has, rfl⟩ := h
    rw [List.append_nil]
    refine (bind_of_done (char_cons '&' (as ++ rest)) _).trans ?_
    exact map_of_done (register_of_lowerCase has hrest) Operand.pointer
  | indirect r =>
    obtain ⟨_, rfl, _, rfl, as, _, rfl, has, _, rfl, rfl⟩ := h
    have htext : "&".toList ++ ("(".toList ++ (as ++ (")".toList ++ []))) ++ rest =
        '&' :: '(' :: (as ++ ')' :: rest) := by simp
    rw [htext]
    refine (bind_of_done (char_cons '&' _) _).trans ?_
    refine (bind_of_done (char_cons '(' _) _).trans ?_
    refine (bind_of_done (register_of_lowerCase has (stops_cons.mpr rfl)) _).trans ?_
    exact (bind_of_done (char_cons ')' rest) _).trans rfl

lemma isSpace_of_isNameStart {c : Char} (h : isNameStart c = true) : isSpace c = false := by
  simp only [isSpace, Bool.or_eq_false_iff, beq_eq_false_iff_ne]
  exact ⟨ne_of_isNameStart h rfl, ne_of_isNameStart h rfl⟩

/-- An operand does not begin with a blank. -/
lemma stops_operand {o : Operand Expression} (h : Spelled o.pieces cs) (rest : List Char) :
    Stops isSpace (cs ++ rest) := by
  have hvalue {e : Expression} (h : Spelled (Operand.literalPieces e) cs) : Stops isSpace (cs ++ rest) := by
    cases e <;> obtain ⟨_, rfl, -⟩ := h <;> exact stops_cons.mpr rfl
  have haddress {e : Expression} (h : Spelled (Operand.addressPieces e) cs) : Stops isSpace (cs ++ rest) := by
    cases e <;> obtain ⟨_, rfl, -⟩ := h <;> exact stops_cons.mpr rfl
  cases o with
  | literal e | byte e => exact hvalue h
  | address e => exact haddress h
  | register r =>
    obtain ⟨as, _, rfl, has, rfl⟩ := h
    rw [List.append_assoc]
    exact stops_of_isName (fun c => isSpace_of_isNameStart) (isName_of_lowerCase has r.isName_name) _
  | pointer r | indirect r =>
    obtain ⟨_, rfl, -⟩ := h
    exact stops_cons.mpr rfl

lemma comma_of_stops (hrest : Stops isSpace rest) : comma (", ".toList ++ rest) = .done () rest := by
  have hspaces {as rest : List Char} (has : ∀ c ∈ as, isSpace c = true) (hrest : Stops isSpace rest) :
      spaces (as ++ rest) = .done () rest := map_of_done (takeWhile_of_stops has hrest) fun _ => ()
  have hnone : spaces (',' :: ([' '] ++ rest)) = .done () (',' :: ([' '] ++ rest)) :=
    hspaces (fun _ h => absurd h List.not_mem_nil) (stops_cons.mpr rfl)
  refine (bind_of_done hnone _).trans ?_
  exact (bind_of_done (char_cons ',' _) _).trans (hspaces (List.forall_mem_singleton.mpr rfl) hrest)

lemma operands_of_spelled {os : List (Operand Expression)} (hos : ∀ o ∈ os, o.WellFormed)
    (h : Spelled (commaSeparated (os.map Operand.pieces)) cs) (hrest : Stops isNameChar rest) :
    operands (os.map Operand.slot) (cs ++ rest) = .done os rest := by
  induction os generalizing cs with
  | nil =>
    obtain rfl : cs = [] := h
    rfl
  | cons o os ih =>
    rw [List.forall_mem_cons] at hos
    rw [List.map_cons, commaSeparated] at h
    obtain ⟨as, bs, rfl, has, hbs⟩ := Spelled.append_iff.mp h
    rw [List.map_cons, List.append_assoc]
    cases os with
    | nil =>
      obtain rfl : bs = [] := hbs
      exact map_of_done (operand_of_spelled hos.1 has hrest) fun o => [o]
    | cons o' os =>
      rw [List.map_cons, List.flatMap_cons] at hbs
      obtain ⟨bs, rfl, hbs⟩ := hbs
      have hstops : Stops isSpace (bs ++ rest) := by
        obtain ⟨bs, _, rfl, hbs, -⟩ := Spelled.append_iff.mp hbs
        rw [List.append_assoc]
        exact stops_operand hbs _
      rw [List.append_assoc, operands_cons (by simp)]
      refine (bind_of_done (operand_of_spelled hos.1 has (stops_cons.mpr rfl)) _).trans ?_
      refine (bind_of_done (comma_of_stops hstops) _).trans ?_
      exact map_of_done (ih hos.2 hbs) (o :: ·)

lemma arguments_of_spelled {os : List (Operand Expression)} (hne : os ≠ [])
    (hos : ∀ o ∈ os, o.WellFormed) (h : Spelled (commaSeparated (os.map Operand.pieces)) cs)
    (hrest : Stops isNameChar rest) :
    arguments (os.map Operand.slot) (' ' :: (cs ++ rest)) = .done os rest := by
  have hstops : Stops isSpace (cs ++ rest) := by
    cases os with
    | nil => exact absurd rfl hne
    | cons o os =>
      obtain ⟨as, bs, rfl, has, -⟩ := Spelled.append_iff.mp h
      rw [List.append_assoc]
      exact stops_operand has _
  rw [arguments, if_neg (by simpa using hne)]
  have hspace : takeWhile1 isSpace ([' '] ++ (cs ++ rest)) = .done [' '] (cs ++ rest) :=
    takeWhile1_of_stops (by simp) (List.forall_mem_singleton.mpr rfl) hstops
  exact (bind_of_done hspace _).trans (operands_of_spelled hos h hrest)

end Operands

section Instructions

lemma isName_mnemonic (op : Opcode) : isName op.mnemonic.toList = true := by
  have hall : ∀ op ∈ Opcode.all, isName op.mnemonic.toList = true := by decide
  exact hall op (Opcode.mem_all op)

lemma lowerCase_mnemonic (op : Opcode) : lowerCase op.mnemonic.toList = op.mnemonic.toList := by
  have hall : ∀ op ∈ Opcode.all, lowerCase op.mnemonic.toList = op.mnemonic.toList := by decide
  exact hall op (Opcode.mem_all op)

lemma mnemonic_ne_keyword (op : Opcode) {w : String}
    (hw : w ∈ ["data8", "data16", "structure", "constant"]) : op.mnemonic ≠ w := by
  have hall : ∀ op ∈ Opcode.all, ∀ w ∈ ["data8", "data16", "structure", "constant"], op.mnemonic ≠ w := by
    decide
  exact hall op (Opcode.mem_all op) w hw

/-- The mnemonic in either case, and the operands behind it. -/
lemma instruction_text {i : Instruction Expression} {cs : List Char} (h : Spelled i.pieces cs) :
    ∃ as rest, cs = as ++ rest ∧ lowerCase as = lowerCase i.opcode.mnemonic.toList ∧
      (i.operands = [] ∧ rest = [] ∨ i.operands ≠ [] ∧ ∃ bs, rest = ' ' :: bs ∧
        Spelled (commaSeparated (i.operands.map Operand.pieces)) bs) := by
  obtain ⟨op, os⟩ := i
  cases os with
  | nil =>
    obtain ⟨as, _, rfl, has, rfl⟩ := h
    exact ⟨as, [], rfl, has, .inl ⟨rfl, rfl⟩⟩
  | cons o os =>
    obtain ⟨as, _, rfl, has, bs, rfl, hbs⟩ := h
    exact ⟨as, ' ' :: bs, rfl, has, .inr ⟨by simp, bs, rfl, hbs⟩⟩

lemma instruction_of_spelled {i : Instruction Expression} (hi : i.WellFormed) {cs : List Char}
    (h : Spelled i.pieces cs) : instruction cs = .done i [] := by
  obtain ⟨as, rest, rfl, has, hrest⟩ := instruction_text h
  have hname := isName_of_lowerCase has (isName_mnemonic i.opcode)
  have hstops : Stops isNameChar rest := by
    obtain ⟨-, rfl⟩ | ⟨-, bs, rfl, -⟩ := hrest
    · exact stops_nil _
    · exact stops_cons.mpr rfl
  have hlabel : (char ':').Misses rest := by
    obtain ⟨-, rfl⟩ | ⟨-, bs, rfl, -⟩ := hrest <;> exact char_misses (by simp)
  have hopcode : i.opcode ∈ Opcode.ofMnemonic (String.ofList as) := by
    rw [Opcode.mem_ofMnemonic, String.toList_ofList]
    exact (lowerCase_mnemonic i.opcode).symm.trans has.symm
  have harguments : arguments i.opcode.format rest = .done i.operands [] := by
    rw [← hi.format_eq, Instruction.format]
    obtain ⟨hnil, rfl⟩ | ⟨hne, bs, rfl, hbs⟩ := hrest
    · rw [hnil]
      rfl
    · have hdone := arguments_of_spelled hne hi.operands hbs (stops_nil isNameChar)
      rwa [List.append_nil] at hdone
  have hend : commaAhead.Misses [] := ⟨[], rfl⟩
  refine (bind_of_done (name_of_isName hname hstops) _).trans ?_
  refine (bind_of_done (notBefore_of_misses hlabel) _).trans ?_
  exact afterMnemonic_eq_done.mpr ⟨hopcode, form_eq_done.mpr ⟨rfl, harguments, hend⟩⟩

end Instructions

section Declarations

variable {as rest cs : List Char}

/-- What blanks and comments may begin with. -/
def isTrivia (c : Char) : Bool := isBlank c || c == ';'

lemma isTrivia_of_isNameStart {c : Char} (h : isNameStart c = true) : isTrivia c = false := by
  simp only [isTrivia, isBlank, Bool.or_eq_false_iff, beq_eq_false_iff_ne]
  exact ⟨⟨⟨isSpace_of_isNameStart h, ne_of_isNameStart h rfl⟩, ne_of_isNameStart h rfl⟩,
    ne_of_isNameStart h rfl⟩

lemma skipTrivia_of_stops (h : Stops isTrivia cs) : skipTrivia false cs = cs := by
  cases cs with
  | nil => rfl
  | cons c cs =>
    have hc : isBlank c = false ∧ (c == ';') = false := by simpa [isTrivia] using stops_cons.mp h
    simp [skipTrivia, hc.1, hc.2]

lemma trivia_of_stops (h : Stops isTrivia cs) : trivia cs = .done () cs := by
  rw [trivia, skipTrivia_of_stops h]

lemma trivia_space (cs : List Char) : trivia (' ' :: cs) = trivia cs := rfl

lemma plus_of_mark (ex : Bool) (h : Stops (· == '+') cs) :
    plus ((exportMark ex).toList ++ cs) = .done ex cs := by
  cases ex with
  | false =>
    have hmiss : (char '+').Misses cs := (charIf_misses h).bind _
    exact (orElse_of_misses (hmiss.bind _) _).trans rfl
  | true => exact orElse_of_done (map_of_done (char_cons '+' cs) fun _ => true) _

/-- The text begins with another word than the keyword. -/
def OtherWord (w : String) (cs : List Char) : Prop :=
  ∃ as rest, cs = as ++ rest ∧ isName as = true ∧ Stops isNameChar rest ∧
    (lowerCase as ≠ w.toList ∨ rest.head? = some ':')

lemma OtherWord.misses {w : String} (hw : isName w.toList = true) (h : OtherWord w cs) :
    (keyword w).Misses cs := by
  obtain ⟨as, rest, rfl, has, hrest, hother⟩ := h
  exact keyword_misses hw (isNameChar_of_isName has) hrest hother

lemma OtherWord.plus {w : String} (h : OtherWord w cs) (ex : Bool) :
    plus ((exportMark ex).toList ++ cs) = .done ex cs := by
  obtain ⟨as, rest, rfl, has, -⟩ := h
  exact plus_of_mark ex
    (stops_of_isName (fun c hc => beq_eq_false_iff_ne.mpr (ne_of_isNameStart hc rfl)) has rest)

lemma data_misses (h8 : OtherWord "data8" cs) (h16 : OtherWord "data16" cs) (ex : Bool) :
    data.Misses ((exportMark ex).toList ++ cs) :=
  misses_bind_of_done (h8.plus ex) ((misses_orElse.mpr
    ⟨(h8.misses (by decide)).bind _, (h16.misses (by decide)).bind _⟩).bind _)

lemma struct_misses (h : OtherWord "structure" cs) (ex : Bool) :
    struct.Misses ((exportMark ex).toList ++ cs) :=
  misses_bind_of_done (h.plus ex) ((h.misses (by decide)).bind _)

lemma constant_misses (h : OtherWord "constant" cs) (ex : Bool) :
    constant.Misses ((exportMark ex).toList ++ cs) :=
  misses_bind_of_done (h.plus ex) ((h.misses (by decide)).bind _)

lemma dataWidth_of_lowerCase {w : DataWidth} (has : lowerCase as = lowerCase w.keyword.toList)
    (hrest : Stops (fun c => isNameChar c || c == ':') rest) : dataWidth (as ++ rest) = .done w rest := by
  cases w with
  | byte =>
    exact orElse_of_done (map_of_done (keyword_of_lowerCase has hrest) fun _ => DataWidth.byte) _
  | word =>
    have hother : OtherWord "data8" (as ++ rest) :=
      ⟨as, rest, rfl, isName_of_lowerCase has (by decide),
        hrest.mono fun c hc => by rw [hc, Bool.true_or],
        .inl fun heq => absurd (heq.symm.trans has) (by decide)⟩
    exact (orElse_of_misses ((hother.misses (by decide)).bind _) _).trans
      (map_of_done (keyword_of_lowerCase has hrest) fun _ => DataWidth.word)

lemma declaredName_of_isName {n : String} (hn : isName n.toList = true) (hrest : Stops isNameChar rest) :
    declaredName (" ".toList ++ (n.toList ++ rest)) = .done n rest := by
  have hstops : Stops isBlank (n.toList ++ rest) := stops_of_isName
    (fun c hc => by simpa [isTrivia] using (Bool.or_eq_false_iff.mp (isTrivia_of_isNameStart hc)).1) hn rest
  refine (bind_of_done (takeWhile1_of_stops (by simp) (List.forall_mem_singleton.mpr rfl) hstops) _).trans ?_
  rw [name_of_isName hn hrest, String.ofList_toList]

lemma assignment_of_stops (hrest : Stops isBlank rest) :
    assignment (" = ".toList ++ rest) = .done () rest := by
  have hblanks {rest : List Char} (hrest : Stops isBlank rest) :
      blanks ([' '] ++ rest) = .done () rest :=
    map_of_done (takeWhile_of_stops (List.forall_mem_singleton.mpr rfl) hrest) fun _ => ()
  have hbefore : blanks ([' '] ++ '=' :: ([' '] ++ rest)) = .done () ('=' :: ([' '] ++ rest)) :=
    hblanks (stops_cons.mpr rfl)
  refine (bind_of_done hbefore _).trans ?_
  exact (bind_of_done (char_cons '=' _) _).trans (hblanks hrest)

lemma separator_of_stops (hrest : Stops isTrivia rest) : separator (", ".toList ++ rest) = .done () rest := by
  have hbefore : trivia (',' :: ' ' :: rest) = .done () (',' :: ' ' :: rest) :=
    trivia_of_stops (stops_cons.mpr rfl)
  refine (bind_of_done hbefore _).trans ?_
  refine (bind_of_done (char_cons ',' _) _).trans ?_
  rw [trivia_space, trivia_of_stops hrest]

lemma trivia_closing (rest : List Char) : trivia (" \x7d".toList ++ rest) = .done () ('\x7d' :: rest) := rfl

section Lists

variable {α : Type} {item : Parser α} {pieces : α → List Piece}

/-- Every spelling of an item is read as the item, which neither a blank nor a comment begins. -/
def Rereads (item : Parser α) (pieces : α → List Piece) (a : α) : Prop :=
  ∀ cs rest, Spelled (pieces a) cs → Stops isTrivia (cs ++ rest) ∧
    (Stops isNameChar rest → item (cs ++ rest) = .done a rest)

/-- After an item comes a comma or the blank before the brace. -/
lemma stops_items {as : List α} (h : Spelled ((as.map pieces).flatMap (.exact ", " :: ·)) cs)
    (rest : List Char) : Stops isNameChar (cs ++ (" \x7d".toList ++ rest)) := by
  cases as with
  | nil =>
    obtain rfl : cs = [] := h
    exact stops_cons.mpr rfl
  | cons a as =>
    obtain ⟨_, rfl, -⟩ := h
    exact stops_cons.mpr rfl

lemma many_of_spelled {as : List α} (has : ∀ a ∈ as, Rereads item pieces a)
    (h : (do separator; item).Progresses)
    (hcs : Spelled ((as.map pieces).flatMap (.exact ", " :: ·)) cs) (rest : List Char) :
    many (do separator; item) h (cs ++ (" \x7d".toList ++ rest)) = .done as (" \x7d".toList ++ rest) := by
  induction as generalizing cs with
  | nil =>
    obtain rfl : cs = [] := hcs
    have hmiss : separator.Misses (" \x7d".toList ++ rest) :=
      misses_bind_of_done (trivia_closing rest) ((char_misses (by simp)).bind _)
    exact many_of_misses (hmiss.bind _)
  | cons a as ih =>
    rw [List.forall_mem_cons] at has
    rw [List.map_cons, List.flatMap_cons] at hcs
    obtain ⟨_, rfl, hcs⟩ := hcs
    obtain ⟨cs, ds, rfl, hcs, hds⟩ := Spelled.append_iff.mp hcs
    have htext : ", ".toList ++ (cs ++ ds) ++ (" \x7d".toList ++ rest) =
        ", ".toList ++ (cs ++ (ds ++ (" \x7d".toList ++ rest))) := by simp only [List.append_assoc]
    have hitem := has.1 cs (ds ++ (" \x7d".toList ++ rest)) hcs
    have hdone : (do separator; item : Parser α) (", ".toList ++ (cs ++ (ds ++ (" \x7d".toList ++ rest)))) =
        .done a (ds ++ (" \x7d".toList ++ rest)) :=
      (bind_of_done (separator_of_stops hitem.1) _).trans (hitem.2 (stops_items hds rest))
    rw [htext, many_of_done hdone, ih has.2 hds]
    rfl

lemma listed_of_spelled {as : List α} (has : ∀ a ∈ as, Rereads item pieces a) (hlocal : item.Local)
    (hmiss : ∀ rest, item.Misses ('\x7d' :: rest)) (h : Spelled (bracedPieces (as.map pieces)) cs)
    (rest : List Char) : listed item hlocal (cs ++ rest) = .done as rest := by
  obtain ⟨_, rfl, h⟩ := h
  obtain ⟨cs, _, rfl, hcs, _, rfl, rfl⟩ := Spelled.append_iff.mp h
  have htext : "\x7b ".toList ++ (cs ++ (" \x7d".toList ++ [])) ++ rest =
      '\x7b' :: ' ' :: (cs ++ (" \x7d".toList ++ rest)) := by simp
  rw [htext]
  refine (bind_of_done (char_cons _ _) _).trans ?_
  have hclosing {rest' : List Char} (h : trivia rest' = .done () ('\x7d' :: rest)) (as : List α) :
      (do trivia; char '\x7d'; return as : Parser (List α)) rest' = .done as rest :=
    (bind_of_done h _).trans (map_of_done (char_cons '\x7d' rest) fun _ => as)
  cases as with
  | nil =>
    obtain rfl : cs = [] := hcs
    have hnone : separated item hlocal ('\x7d' :: rest) = .done [] ('\x7d' :: rest) :=
      orElse_of_misses ((hmiss rest).bind _) _
    have hopening : trivia (' ' :: ([] ++ (" \x7d".toList ++ rest))) = .done () ('\x7d' :: rest) := rfl
    refine (bind_of_done hopening _).trans ?_
    exact (bind_of_done hnone _).trans (hclosing (trivia_of_stops (stops_cons.mpr rfl)) [])
  | cons a as =>
    rw [List.forall_mem_cons] at has
    obtain ⟨cs, ds, rfl, hcs, hds⟩ := Spelled.append_iff.mp hcs
    have hitem := has.1 cs (ds ++ (" \x7d".toList ++ rest)) hcs
    have hseparated : separated item hlocal (cs ++ (ds ++ (" \x7d".toList ++ rest))) =
        .done (a :: as) (" \x7d".toList ++ rest) := by
      refine orElse_of_done ((bind_of_done (hitem.2 (stops_items hds rest)) _).trans ?_) _
      exact map_of_done (many_of_spelled has.2 _ hds rest) (a :: ·)
    rw [List.append_assoc]
    refine (bind_of_done ((trivia_space _).trans (trivia_of_stops hitem.1)) _).trans ?_
    exact (bind_of_done hseparated _).trans (hclosing (trivia_closing rest) (a :: as))

end Lists

lemma rereads_hexLiteral (v : UInt32) :
    Rereads hexLiteral (fun v => [.exact "$", .word (Hex.format 2 v.toNat)]) v := by
  intro cs rest h
  refine ⟨?_, hexLiteral_of_spelled h⟩
  obtain ⟨_, rfl, -⟩ := h
  exact stops_cons.mpr rfl

lemma rereads_member {m : String × UInt32} (hm : isName m.1.toList = true) :
    Rereads member (fun m => [.exact m.1, .exact ": ", .exact "$", .word (Hex.format 2 m.2.toNat)]) m := by
  intro cs rest h
  obtain ⟨_, rfl, _, rfl, ds, rfl, hds⟩ := h
  have htext : m.1.toList ++ (": ".toList ++ ("$".toList ++ ds)) ++ rest =
      m.1.toList ++ (':' :: ' ' :: ("$".toList ++ ds ++ rest)) := by simp
  rw [htext]
  refine ⟨stops_of_isName (fun c => isTrivia_of_isNameStart) hm _, fun hrest => ?_⟩
  refine (bind_of_done (name_of_isName hm (stops_cons.mpr rfl)) _).trans ?_
  refine (bind_of_done (trivia_of_stops (stops_cons.mpr rfl)) _).trans ?_
  refine (bind_of_done (char_cons ':' _) _).trans ?_
  refine (bind_of_done ((trivia_space _).trans (trivia_of_stops (stops_cons.mpr rfl))) _).trans ?_
  refine (bind_of_done (hexLiteral_of_spelled ⟨ds, rfl, hds⟩ hrest) _).trans ?_
  rw [String.ofList_toList]
  rfl

end Declarations

section Statements

variable {as rest cs : List Char}

lemma otherWord_of_lowerCase {v w : String} (has : lowerCase as = lowerCase v.toList)
    (hv : isName v.toList = true) (hne : lowerCase v.toList ≠ w.toList) (hrest : Stops isNameChar rest) :
    OtherWord w (as ++ rest) :=
  ⟨as, rest, rfl, isName_of_lowerCase has hv, hrest, .inl fun heq => hne (has.symm.trans heq)⟩

/-- What no keyword begins is an instruction or a label. -/
lemma statement_of_otherWord (h : ∀ w ∈ ["data8", "data16", "structure", "constant"], OtherWord w cs) :
    statement cs = ((do return .instruction (← instruction)) <|> label : Parser Statement) cs := by
  have hdata : data.Misses cs := data_misses (h _ (by simp)) (h _ (by simp)) false
  have hstruct : struct.Misses cs := struct_misses (h _ (by simp)) false
  have hconstant : constant.Misses cs := constant_misses (h _ (by simp)) false
  exact (orElse_of_misses hdata _).trans ((orElse_of_misses hstruct _).trans (orElse_of_misses hconstant _))

lemma statement_of_label {n : String} (hn : isName n.toList = true) :
    statement (n.toList ++ [':']) = .done (.label n) [] := by
  have hname : name (n.toList ++ [':']) = .done n [':'] := by
    rw [name_of_isName hn (stops_cons.mpr rfl), String.ofList_toList]
  have hinstruction : instruction.Misses (n.toList ++ [':']) :=
    misses_bind_of_done hname ((misses_notBefore (char_cons ':' [])).bind _)
  rw [statement_of_otherWord fun w _ => ⟨n.toList, [':'], rfl, hn, stops_cons.mpr rfl, .inr rfl⟩]
  refine (orElse_of_misses (hinstruction.bind _) _).trans ((bind_of_done hname _).trans ?_)
  exact map_of_done (char_cons ':' []) fun _ => Statement.label n

lemma statement_of_instruction {i : Instruction Expression} (hi : i.WellFormed)
    (h : Spelled i.pieces cs) : statement cs = .done (.instruction i) [] := by
  have hother : ∀ w ∈ ["data8", "data16", "structure", "constant"], OtherWord w cs := by
    obtain ⟨as, rest, rfl, has, hrest⟩ := instruction_text h
    intro w hw
    have hne : lowerCase i.opcode.mnemonic.toList ≠ w.toList := by
      rw [lowerCase_mnemonic]
      exact fun heq => mnemonic_ne_keyword i.opcode hw (String.toList_inj.mp heq)
    refine otherWord_of_lowerCase has (isName_mnemonic _) hne ?_
    obtain ⟨-, rfl⟩ | ⟨-, bs, rfl, -⟩ := hrest
    · exact stops_nil _
    · exact stops_cons.mpr rfl
  rw [statement_of_otherWord hother]
  exact orElse_of_done (map_of_done (instruction_of_spelled hi h) Statement.instruction) _

/-- A declaration begins with its mark, its keyword and the name it declares. -/
lemma declaration_of_done {κ : Type} {k : Parser κ} {a : κ} {d : Declaration} {ex : Bool} {n : String}
    {s : Statement} {f : Bool → κ → String → Parser Statement}
    (hplus : plus ((exportMark ex).toList ++ cs) = .done ex cs)
    (hkeyword : k cs = .done a (" ".toList ++ (n.toList ++ rest))) (hn : isName n.toList = true)
    (hrest : Stops isNameChar rest) (hf : f ex a n rest = .done s []) :
    (do let ex ← plus; let a ← k; commit d (do let n ← declaredName; f ex a n) : Parser Statement)
      ((exportMark ex).toList ++ cs) = .done s [] := by
  refine (bind_of_done hplus _).trans ((bind_of_done hkeyword _).trans (commit_eq_done.mpr ?_))
  exact (bind_of_done (declaredName_of_isName hn hrest) _).trans hf

lemma statement_of_constant {ex : Bool} {n : String} {v : UInt32} (hn : isName n.toList = true)
    (h : Spelled (Statement.constant ex n v).pieces cs) : statement cs = .done (.constant ex n v) [] := by
  obtain ⟨_, rfl, as, _, rfl, has, _, rfl, _, rfl, _, rfl, ds, rfl, hds⟩ := h
  have hother {w : String} (hne : lowerCase "constant".toList ≠ w.toList) (rest : List Char) :
      OtherWord w (as ++ (" ".toList ++ rest)) :=
    otherWord_of_lowerCase has (by decide) hne (stops_cons.mpr rfl)
  have hvalue : hexLiteral ("$".toList ++ ds) = .done v [] := by
    have hdone := hexLiteral_of_spelled ⟨ds, rfl, hds⟩ (stops_nil isNameChar)
    rwa [List.append_nil] at hdone
  refine (orElse_of_misses (data_misses (hother (by decide) _) (hother (by decide) _) ex) _).trans ?_
  refine (orElse_of_misses (struct_misses (hother (by decide) _) ex) _).trans (orElse_of_done ?_ _)
  refine declaration_of_done ((hother (w := "data8") (by decide) _).plus ex)
    (keyword_of_lowerCase (has.trans (by decide)) (stops_cons.mpr rfl)) hn (stops_cons.mpr rfl) ?_
  refine (bind_of_done (assignment_of_stops (stops_cons.mpr rfl)) _).trans ?_
  exact map_of_done hvalue (Statement.constant ex n)

lemma statement_of_data {ex : Bool} {w : DataWidth} {n : String} {vs : List UInt32}
    (hn : isName n.toList = true) (h : Spelled (Statement.data ex w n vs).pieces cs) :
    statement cs = .done (.data ex w n vs) [] := by
  obtain ⟨_, rfl, as, _, rfl, has, _, rfl, _, rfl, ds, rfl, hds⟩ := h
  have hkeyword : isName w.keyword.toList = true ∧ lowerCase w.keyword.toList ≠ "constant".toList := by
    cases w <;> decide
  have hother (rest : List Char) : OtherWord "constant" (as ++ (" ".toList ++ rest)) :=
    otherWord_of_lowerCase has hkeyword.1 hkeyword.2 (stops_cons.mpr rfl)
  have hvalues := listed_of_spelled (fun v _ => rereads_hexLiteral v) local_hexLiteral
    (fun _ => (char_misses (by simp)).bind _) hds []
  rw [List.append_nil] at hvalues
  have hopening : Stops isBlank ds := by
    obtain ⟨_, rfl, -⟩ := hds
    exact stops_cons.mpr rfl
  refine orElse_of_done ?_ _
  refine declaration_of_done ((hother _).plus ex) (dataWidth_of_lowerCase has (stops_cons.mpr rfl)) hn
    (stops_cons.mpr rfl) ?_
  refine (bind_of_done (assignment_of_stops hopening) _).trans ?_
  exact map_of_done hvalues (Statement.data ex w n)

lemma statement_of_struct {ex : Bool} {n : String} {ms : List (String × UInt32)}
    (hn : isName n.toList = true) (hms : ∀ m ∈ ms, isName m.1.toList = true)
    (h : Spelled (Statement.struct ex n ms).pieces cs) : statement cs = .done (.struct ex n ms) [] := by
  obtain ⟨_, rfl, as, _, rfl, has, _, rfl, _, rfl, _, rfl, ds, rfl, hds⟩ := h
  have hother {w : String} (hne : lowerCase "structure".toList ≠ w.toList) (rest : List Char) :
      OtherWord w (as ++ (" ".toList ++ rest)) :=
    otherWord_of_lowerCase has (by decide) hne (stops_cons.mpr rfl)
  have hmembers := listed_of_spelled (fun m hm => rereads_member (hms m hm)) local_member
    (fun _ => (name_misses (stops_cons.mpr rfl)).bind _) ⟨ds, rfl, hds⟩ []
  rw [List.append_nil] at hmembers
  refine (orElse_of_misses (data_misses (hother (by decide) _) (hother (by decide) _) ex) _).trans ?_
  refine orElse_of_done ?_ _
  refine declaration_of_done ((hother (w := "data8") (by decide) _).plus ex)
    (keyword_of_lowerCase (has.trans (by decide)) (stops_cons.mpr rfl)) hn (stops_cons.mpr rfl) ?_
  refine (bind_of_done ((trivia_space _).trans (trivia_of_stops (stops_cons.mpr rfl))) _).trans ?_
  exact map_of_done hmembers (Statement.struct ex n)

/-- Every spelling of a statement is read as the statement, to the end of the text. -/
lemma statement_of_spelled {s : Statement} (hs : s.WellFormed) (h : Spelled s.pieces cs) :
    statement cs = .done s [] := by
  cases s with
  | label n =>
    obtain ⟨_, rfl, _, rfl, rfl⟩ := h
    exact statement_of_label hs
  | constant ex n v => exact statement_of_constant hs h
  | data ex w n vs => exact statement_of_data hs h
  | struct ex n ms => exact statement_of_struct hs.1 hs.2 h
  | instruction i => exact statement_of_instruction hs h

/-- A statement does not begin with a blank or a comment. -/
lemma stops_statement {s : Statement} (hs : s.WellFormed) (h : Spelled s.pieces cs) : Stops isTrivia cs := by
  have hname {as rest : List Char} (has : isName as = true) : Stops isTrivia (as ++ rest) :=
    stops_of_isName (fun c => isTrivia_of_isNameStart) has rest
  have hdeclaration {ex : Bool} {w : String} {ps : List Piece} (hw : isName w.toList = true)
      (h : Spelled (.exact (exportMark ex) :: .word w :: ps) cs) : Stops isTrivia cs := by
    obtain ⟨_, rfl, as, _, rfl, has, -⟩ := h
    cases ex with
    | false =>
      change Stops isTrivia (as ++ _)
      exact hname (isName_of_lowerCase has hw)
    | true => exact stops_cons.mpr rfl
  cases s with
  | label n =>
    obtain ⟨_, rfl, -⟩ := h
    exact hname hs
  | constant ex n v => exact hdeclaration (by decide) h
  | data ex w n vs => exact hdeclaration (by cases w <;> decide) h
  | struct ex n ms => exact hdeclaration (by decide) h
  | instruction i =>
    obtain ⟨as, rest, rfl, has, -⟩ := instruction_text h
    exact hname (isName_of_lowerCase has (isName_mnemonic _))

end Statements

end Grammar

namespace Program

def statements (p : Program) : List Statement := p.map Node.statement

lemma parseAt_of_spelled {p : Program} (hp : p.WellFormed) {cs : List Char} (h : Spelled p.pieces cs)
    (offset : Nat) : ∃ q, parseAt offset cs = .ok q ∧ q.statements = p.statements := by
  induction p generalizing cs offset with
  | nil =>
    obtain rfl : cs = [] := h
    exact ⟨[], parseAt_of_nil rfl, rfl⟩
  | cons n p ih =>
    obtain ⟨hn, hp⟩ := List.forall_mem_cons.mp hp
    obtain ⟨_, bs, rfl, hcs, hbs⟩ := Spelled.append_iff.mp h
    obtain ⟨as, _, rfl, has, _, rfl, rfl⟩ := Spelled.append_iff.mp hcs
    obtain ⟨q, hq, hstatements⟩ := ih hp hbs (offset + byteLength as + 1)
    have hstart := Grammar.skipTrivia_of_stops (Grammar.stops_statement hn has)
    have hline : Nodes (offset + byteLength as) as _ :=
      .cons hstart (Grammar.statement_of_spelled hn has) (.nil rfl)
    have htext : as ++ ("\n".toList ++ []) ++ bs = as ++ '\n' :: bs := by simp
    rw [htext, parseAt_append_lines hline rfl, hq]
    exact ⟨_, rfl, congrArg (n.statement :: ·) hstatements⟩

lemma parse_of_spelled {p : Program} (hp : p.WellFormed) {text : String} (h : Spelled p.pieces text.toList) :
    ∃ q, parse text = .ok q ∧ q.statements = p.statements := by
  obtain ⟨q, hq, hstatements⟩ := parseAt_of_spelled hp h 0
  have hend : 0 + byteLength text.toList = text.utf8ByteSize := by rw [Nat.zero_add, byteLength_toList]
  exact ⟨q, parse_eq_ok.mpr ((parseAt_eq_ok hend).mp hq), hstatements⟩

/-- Parsing undoes printing: a well-formed program is read back from its text, also with mnemonics,
keywords, registers and digits in another case. What has been read is always well formed, so that it
survives printing, and compiling it never fails for the format of an instruction. -/
theorem parse_print :
    (∀ p : Program, joined p.pieces = p.print.toList) ∧
    (∀ p : Program, p.WellFormed →
      (∃ q, parse p.print = .ok q ∧ q.statements = p.statements) ∧
      ∀ text : String, Spelled p.pieces text.toList →
        ∃ q, parse text = .ok q ∧ q.statements = p.statements) ∧
    (∀ (source : String) (p : Program), parse source = .ok p →
      p.WellFormed ∧ ∃ q, parse p.print = .ok q ∧ q.statements = p.statements) ∧
    ∀ (source : String) (op : Opcode), assemble source ≠ .error (.uncompilable (.formatMismatch op)) := by
  have hprint {p : Program} (hp : p.WellFormed) : ∃ q, parse p.print = .ok q ∧ q.statements = p.statements :=
    parse_of_spelled hp (p.joined_pieces ▸ Spelled.joined p.pieces)
  refine ⟨joined_pieces, fun p hp => ⟨hprint hp, fun text h => parse_of_spelled hp h⟩,
    fun source p h => ?_, assemble_ne_formatMismatch⟩
  have hp := wellFormed_of_parse h
  exact ⟨hp, hprint hp⟩

theorem parse_print_sample :
    (∃ q, parse "start:\nMov $001F, ACC\n" = .ok q ∧
      q.statements = [.label "start", .instruction ⟨.movLitReg, [.literal (.literal 0x1f), .register .acc]⟩]) ∧
    ∃ q, parse (print [⟨.constant false "MAX" 0x10, ⟨0, 18⟩⟩]) = .ok q ∧
      q.statements = [.constant false "MAX" 0x10] := by
  have hwell : Program.WellFormed [⟨.label "start", ⟨0, 0⟩⟩,
      ⟨.instruction ⟨.movLitReg, [.literal (.literal 0x1f), .register .acc]⟩, ⟨0, 0⟩⟩] := by decide +kernel
  obtain ⟨-, hspelled, hparsed, -⟩ := parse_print
  refine ⟨(hspelled _ hwell).2 _ ?_, (hparsed "constant MAX = $10" _ (by decide +kernel)).2⟩
  exact ⟨_, rfl, _, rfl, _, rfl, "Mov".toList, _, rfl, by decide, _, rfl, _, rfl, "001F".toList, _, rfl,
    by decide, _, rfl, "ACC".toList, _, rfl, by decide, _, rfl, rfl⟩

end Program
end Machine16
