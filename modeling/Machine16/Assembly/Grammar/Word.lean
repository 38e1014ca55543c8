import Machine16.Assembly.Parser
import Machine16.Isa.Register

/-! The words of an assembly source: names, keywords, numbers, and the blanks and comments between
them. Letters of keywords, registers and digits are read in either case. A comment runs from a
semicolon to the end of the line. -/
namespace Machine16.Grammar

open Machine16.Parser

def isSpace (c : Char) : Bool := c == ' ' || c == '\t'

def isBlank (c : Char) : Bool := isSpace c || c == '\r' || c == '\n'

/-- The text after blanks and comments. -/
def skipTrivia (inComment : Bool) : List Char → List Char
  | [] => []
  | c :: cs =>
    if inComment then skipTrivia (c != '\n') cs
    else if isBlank c then skipTrivia false cs
    else if c == ';' then skipTrivia true cs
    else c :: cs

theorem skipTrivia_suffix (inComment : Bool) (cs : List Char) :
    skipTrivia inComment cs <:+ cs := by
  induction cs generalizing inComment with
  | nil => exact List.suffix_refl _
  | cons c cs ih =>
    unfold skipTrivia
    split
    · exact (ih _).trans (List.suffix_cons _ _)
    · split
      · exact (ih _).trans (List.suffix_cons _ _)
      · split
        · exact (ih _).trans (List.suffix_cons _ _)
        · exact List.suffix_refl _

def trivia : Parser Unit := fun cs => .done () (skipTrivia false cs)

theorem local_trivia : trivia.Local := skipTrivia_suffix false

def spaces : Parser Unit := do
  let _ ← takeWhile isSpace

theorem local_spaces : spaces.Local := (local_takeWhile _).bind fun _ => local_pure _

def blanks : Parser Unit := do
  let _ ← takeWhile isBlank

theorem local_blanks : blanks.Local := (local_takeWhile _).bind fun _ => local_pure _

def char (c : Char) : Parser Unit := do
  let _ ← charIf (· == c)

theorem local_char (c : Char) : (char c).Local := (local_charIf _).bind fun _ => local_pure _

theorem progresses_char (c : Char) : (char c).Progresses :=
  (progresses_charIf _).bind fun _ => local_pure _

def name : Parser String := do
  let c ← charIf isNameStart
  let cs ← takeWhile isNameChar
  return String.ofList (c :: cs)

theorem local_name : name.Local :=
  (local_charIf _).bind fun _ => (local_takeWhile _).bind fun _ => local_pure _

theorem progresses_name : name.Progresses :=
  (progresses_charIf _).bind fun _ => (local_takeWhile _).bind fun _ => local_pure _

def letters : List Char → Parser Unit
  | [] => return ()
  | w :: ws => do
    let _ ← charIf fun c => c.toLower == w
    letters ws

theorem local_letters (ws : List Char) : (letters ws).Local := by
  induction ws with
  | nil => exact local_pure _
  | cons w ws ih => exact (local_charIf _).bind fun _ => ih

/-- A word that does not go on as a longer name or as a label. -/
def keyword (w : String) : Parser Unit := do
  letters w.toList
  notBefore (charIf fun c => isNameChar c || c == ':')

theorem local_keyword (w : String) : (keyword w).Local :=
  (local_letters _).bind fun _ => (local_charIf _).notBefore

theorem progresses_keyword {w : String} (h : w ≠ "") : (keyword w).Progresses := by
  unfold keyword
  cases hw : w.toList with
  | nil => simp_all
  | cons c cs =>
    have hl : (letters (c :: cs)).Progresses :=
      (progresses_charIf _).bind fun _ => local_letters cs
    exact hl.bind fun _ => (local_charIf _).notBefore

def register : Parser Register := name.select Register.ofName?

theorem local_register : register.Local := local_name.select _

/-- Digits that do not run into a name. -/
def digits : Parser (List Char) := do
  let ds ← takeWhile1 Hex.isDigit
  notBefore (charIf isNameChar)
  return ds

theorem local_digits : digits.Local :=
  (local_takeWhile1 _).bind fun _ => (local_charIf _).notBefore.bind fun _ => local_pure _

def number : Parser UInt32 := fun cs =>
  match digits cs with
  | .done ds unread =>
    if Hex.value ds < UInt32.size then .done (UInt32.ofNat (Hex.value ds)) unread
    else .fail cs ⟨.literalTooLarge, none⟩
  | .miss place => .miss place
  | .fail place reason => .fail place reason

theorem local_number : number.Local := by
  intro cs
  have h := local_digits cs
  unfold number
  split
  · split <;> simp_all [Outcome.stop]
  · simp_all [Outcome.stop]
  · simp_all [Outcome.stop]

def hexLiteral : Parser UInt32 := do
  char '$'
  number

theorem local_hexLiteral : hexLiteral.Local := (local_char _).bind fun _ => local_number

end Machine16.Grammar
