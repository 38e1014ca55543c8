import Machine16.Assembly.Grammar.Word
import Machine16.Assembly.Instruction

/-! Operands and instructions. A mnemonic may have several opcodes, which are tried in the order
of the table; the operands decide between them. -/
namespace Machine16.Grammar

open Machine16.Parser

/-- An expression between a bracket and the next closing bracket. -/
def bracketed : Parser Expression
  | '[' :: inner =>
    match inner.dropWhile (· != ']') with
    | [] => .miss inner
    | _ :: unread =>
      match Expression.parse (inner.takeWhile (· != ']')) with
      | .ok e => .done e unread
      | .error (offset, p) => .fail (dropBytes offset inner) ⟨.expression offset p, none⟩
  | cs => .miss cs

theorem local_bracketed : bracketed.Local := by
  intro cs
  unfold bracketed
  split
  · rename_i inner
    split
    · exact List.suffix_cons _ _
    · rename_i c unread hd
      have hs : c :: unread <:+ inner := hd ▸ List.dropWhile_suffix _
      split
      · exact (List.suffix_cons _ _).trans (hs.trans (List.suffix_cons _ _))
      · exact (dropBytes_suffix _ _).trans (List.suffix_cons _ _)
  · exact List.suffix_refl _

def literal : Parser Expression :=
  (do return .literal (← hexLiteral)) <|> bracketed

theorem local_literal : literal.Local :=
  (local_hexLiteral.bind fun _ => local_pure _).orElse local_bracketed

/-- A register after the mark is a pointer, even where its name could be a number. -/
def address : Parser Expression := do
  char '&'
  notBefore register
  (do return .literal (← number)) <|> bracketed

theorem local_address : address.Local :=
  (local_char _).bind fun _ => local_register.notBefore.bind fun _ =>
    (local_number.bind fun _ => local_pure _).orElse local_bracketed

def operand : Slot → Parser (Operand Expression)
  | .literal => do return .literal (← literal)
  | .byte => do return .byte (← literal)
  | .address => do return .address (← address)
  | .register => do return .register (← register)
  | .pointer => do
    char '&'
    return .pointer (← register)
  | .indirect => do
    char '&'
    char '('
    let r ← register
    char ')'
    return .indirect r

theorem local_operand (s : Slot) : (operand s).Local := by
  cases s with
  | literal => exact local_literal.bind fun _ => local_pure _
  | byte => exact local_literal.bind fun _ => local_pure _
  | address => exact local_address.bind fun _ => local_pure _
  | register => exact local_register.bind fun _ => local_pure _
  | pointer => exact (local_char _).bind fun _ => local_register.bind fun _ => local_pure _
  | indirect =>
    exact (local_char _).bind fun _ => (local_char _).bind fun _ =>
      local_register.bind fun _ => (local_char _).bind fun _ => local_pure _

def comma : Parser Unit := do
  spaces
  char ','
  spaces

theorem local_comma : comma.Local :=
  local_spaces.bind fun _ => (local_char _).bind fun _ => local_spaces

def operands : Format → Parser (List (Operand Expression))
  | [] => return []
  | [s] => do return [← operand s]
  | s :: f => do
    let o ← operand s
    comma
    return o :: (← operands f)

theorem local_operands (f : Format) : (operands f).Local := by
  fun_induction operands f with
  | case1 => exact local_pure _
  | case2 s => exact (local_operand s).bind fun _ => local_pure _
  | case3 s f _ ih =>
    exact (local_operand s).bind fun _ => local_comma.bind fun _ => ih.bind fun _ => local_pure _

/-- What an opcode asks for after its mnemonic. -/
def arguments (f : Format) : Parser (List (Operand Expression)) :=
  if f = [] then return []
  else do
    let _ ← takeWhile1 isSpace
    operands f

theorem local_arguments (f : Format) : (arguments f).Local := by
  unfold arguments
  split
  · exact local_pure _
  · exact (local_takeWhile1 _).bind fun _ => local_operands f

/-- A comma after the operands calls for more of them, so it belongs to another opcode. -/
def form (op : Opcode) : Parser (Instruction Expression) := do
  let os ← arguments op.format
  notBefore do
    spaces
    char ','
  return ⟨op, os⟩

theorem local_form (op : Opcode) : (form op).Local :=
  (local_arguments _).bind fun _ =>
    (local_spaces.bind fun _ => local_char _).notBefore.bind fun _ => local_pure _

def firstForm : List Opcode → Parser (Instruction Expression)
  | [] => miss
  | op :: ops => form op <|> firstForm ops

theorem local_firstForm (ops : List Opcode) : (firstForm ops).Local := by
  induction ops with
  | nil => exact local_miss
  | cons op ops ih => exact (local_form op).orElse ih

/-- The operands that follow a mnemonic. Operands in no form of it are an error. -/
def afterMnemonic (mnemonic : String) : Parser (Instruction Expression) :=
  match Opcode.ofMnemonic mnemonic with
  | [] => miss
  | op :: ops =>
    firstForm (op :: ops) <|> do
      spaces
      fail ⟨.operands op.mnemonic, none⟩

theorem local_afterMnemonic (mnemonic : String) : (afterMnemonic mnemonic).Local := by
  unfold afterMnemonic
  split
  · exact local_miss
  · exact (local_firstForm _).orElse (local_spaces.bind fun _ => local_fail _)

def instruction : Parser (Instruction Expression) := do
  let mnemonic ← name
  notBefore (char ':')
  afterMnemonic mnemonic

theorem progresses_instruction : instruction.Progresses :=
  progresses_name.bind fun _ => (local_char _).notBefore.bind fun _ => local_afterMnemonic _

theorem local_instruction : instruction.Local :=
  local_name.bind fun _ => (local_char _).notBefore.bind fun _ => local_afterMnemonic _

end Machine16.Grammar
