import Machine16.Assembly.Grammar.Instruction
import Machine16.Assembly.Program

/-! Labels, declarations and instructions, and whole programs. After its keyword a declaration
has no other reading, so that what does not fit it is an error at once. -/
namespace Machine16

namespace Grammar

open Machine16.Parser

def label : Parser Statement := do
  let n ← name
  char ':'
  return .label n

theorem local_label : label.Local :=
  local_name.bind fun _ => (local_char _).bind fun _ => local_pure _

theorem progresses_label : label.Progresses :=
  progresses_name.bind fun _ => (local_char _).bind fun _ => local_pure _

def plus : Parser Bool :=
  (do
    char '+'
    return true) <|> pure false

theorem local_plus : plus.Local :=
  ((local_char _).bind fun _ => local_pure _).orElse (local_pure _)

def declaredName : Parser String := do
  let _ ← takeWhile1 isBlank
  name

theorem local_declaredName : declaredName.Local := (local_takeWhile1 _).bind fun _ => local_name

def assignment : Parser Unit := do
  blanks
  char '='
  blanks

theorem local_assignment : assignment.Local :=
  local_blanks.bind fun _ => (local_char _).bind fun _ => local_blanks

def separator : Parser Unit := do
  trivia
  char ','
  trivia

theorem progresses_separator : separator.Progresses :=
  local_trivia.bind_progresses fun _ => (progresses_char _).bind fun _ => local_trivia

theorem local_separator : separator.Local :=
  local_trivia.bind fun _ => (local_char _).bind fun _ => local_trivia

variable {α : Type}

/-- Items with commas between them, or nothing. A comma without an item after it is left. -/
def separated (item : Parser α) (h : item.Local) : Parser (List α) :=
  (do
    let a ← item
    let as ← many (do separator; item) (progresses_separator.bind fun _ => h)
    return a :: as) <|> pure []

theorem local_separated {item : Parser α} (h : item.Local) : (separated item h).Local :=
  (h.bind fun _ =>
    ((local_separator.bind fun _ => h).many _).bind fun _ => local_pure _).orElse (local_pure _)

/-- Items in braces, of which the first one has been read. -/
def listed (item : Parser α) (h : item.Local) : Parser (List α) := do
  char '\x7b'
  trivia
  let as ← separated item h
  trivia
  char '\x7d'
  return as

theorem local_listed {item : Parser α} (h : item.Local) : (listed item h).Local :=
  (local_char _).bind fun _ => local_trivia.bind fun _ => (local_separated h).bind fun _ =>
    local_trivia.bind fun _ => (local_char _).bind fun _ => local_pure _

def constant : Parser Statement := do
  let ex ← plus
  keyword "constant"
  commit .constant do
    let n ← declaredName
    assignment
    return .constant ex n (← hexLiteral)

theorem progresses_constant : constant.Progresses :=
  local_plus.bind_progresses fun _ => (progresses_keyword (by decide)).bind fun _ =>
    (local_declaredName.bind fun _ => local_assignment.bind fun _ =>
      local_hexLiteral.bind fun _ => local_pure _).commit _

theorem local_constant : constant.Local :=
  local_plus.bind fun _ => (local_keyword _).bind fun _ =>
    (local_declaredName.bind fun _ => local_assignment.bind fun _ =>
      local_hexLiteral.bind fun _ => local_pure _).commit _

def dataWidth : Parser DataWidth :=
  (do
    keyword DataWidth.byte.keyword
    return .byte) <|> do
    keyword DataWidth.word.keyword
    return .word

theorem progresses_dataWidth : dataWidth.Progresses :=
  ((progresses_keyword (by decide)).bind fun _ => local_pure _).orElse
    ((progresses_keyword (by decide)).bind fun _ => local_pure _)

theorem local_dataWidth : dataWidth.Local :=
  ((local_keyword _).bind fun _ => local_pure _).orElse
    ((local_keyword _).bind fun _ => local_pure _)

def data : Parser Statement := do
  let ex ← plus
  let w ← dataWidth
  commit .data do
    let n ← declaredName
    assignment
    return .data ex w n (← listed hexLiteral local_hexLiteral)

theorem progresses_data : data.Progresses :=
  local_plus.bind_progresses fun _ => progresses_dataWidth.bind fun _ =>
    (local_declaredName.bind fun _ => local_assignment.bind fun _ =>
      (local_listed _).bind fun _ => local_pure _).commit _

theorem local_data : data.Local :=
  local_plus.bind fun _ => local_dataWidth.bind fun _ =>
    (local_declaredName.bind fun _ => local_assignment.bind fun _ =>
      (local_listed _).bind fun _ => local_pure _).commit _

def member : Parser (String × UInt32) := do
  let n ← name
  trivia
  char ':'
  trivia
  return (n, ← hexLiteral)

theorem local_member : member.Local :=
  local_name.bind fun _ => local_trivia.bind fun _ => (local_char _).bind fun _ =>
    local_trivia.bind fun _ => local_hexLiteral.bind fun _ => local_pure _

def struct : Parser Statement := do
  let ex ← plus
  keyword "structure"
  commit .struct do
    let n ← declaredName
    trivia
    return .struct ex n (← listed member local_member)

theorem progresses_struct : struct.Progresses :=
  local_plus.bind_progresses fun _ => (progresses_keyword (by decide)).bind fun _ =>
    (local_declaredName.bind fun _ => local_trivia.bind fun _ =>
      (local_listed _).bind fun _ => local_pure _).commit _

theorem local_struct : struct.Local :=
  local_plus.bind fun _ => (local_keyword _).bind fun _ =>
    (local_declaredName.bind fun _ => local_trivia.bind fun _ =>
      (local_listed _).bind fun _ => local_pure _).commit _

def statement : Parser Statement :=
  data <|> struct <|> constant <|> (do return .instruction (← instruction)) <|> label

theorem progresses_statement : statement.Progresses :=
  progresses_data.orElse (progresses_struct.orElse (progresses_constant.orElse
    ((progresses_instruction.bind fun _ => local_pure _).orElse progresses_label)))

theorem local_statement : statement.Local :=
  local_data.orElse (local_struct.orElse (local_constant.orElse
    ((local_instruction.bind fun _ => local_pure _).orElse local_label)))

end Grammar

namespace Program

/-- The nodes of a text that begins at `offset`, or the ending of the text that is no node. -/
def parseAt (offset : Nat) (cs : List Char) : Except (List Char × Reason) Program :=
  match h : Grammar.skipTrivia false cs with
  | [] => .ok []
  | c :: rest =>
    let start := offset + (byteLength cs - byteLength (c :: rest))
    match hs : Grammar.statement (c :: rest) with
    | .done s unread =>
      have : unread.length < cs.length := by
        have h1 := Grammar.progresses_statement _ _ _ hs
        have h2 := (Grammar.skipTrivia_suffix false cs).length_le
        rw [h] at h2
        omega
      let stop := start + (byteLength (c :: rest) - byteLength unread)
      (⟨s, start, stop⟩ :: ·) <$> parseAt stop unread
    | .miss place => .error (place, ⟨.unexpectedInput, none⟩)
    | .fail place reason => .error (place, reason)
termination_by cs.length

def parse (source : String) : Except SyntaxError Program :=
  match parseAt 0 source.toList with
  | .ok p => .ok p
  | .error (unread, reason) => .error (.locate source.toList unread reason)

end Program
end Machine16
