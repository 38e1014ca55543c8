import Machine16.Assembly.Expression
import Machine16.Text.Location
import Machine16.Text.Name

/-! The tokens of bracketed expressions. Tokens are as long as they can be, blanks separate them,
and a character that begins no token is a token of its own. -/
namespace Machine16

inductive Token
  /-- A character that has no meaning here, or a number of more than 32 bits. -/
  | unknown
  | number (value : UInt32)
  | symbol (name : String)
  | name (name : String)
  | less | greater | dot | openParen | closeParen
  | operator (operator : Operator)
  deriving DecidableEq, Repr

structure Lexeme where
  token : Token
  span : Span
  deriving DecidableEq, Repr

namespace Token

def print : Token → String
  | unknown => "<error>"
  | number v => "$" ++ Hex.format 1 v.toNat
  | symbol n => "!" ++ n
  | name n => n
  | less => "<"
  | greater => ">"
  | dot => "."
  | openParen => "("
  | closeParen => ")"
  | operator op => op.symbol

def isBlank (c : Char) : Bool :=
  c == ' ' || c == '\n' || c == '\t' || c == '\r' || c == '\x0c'

def ofChar : Char → Token
  | '<' => less
  | '>' => greater
  | '.' => dot
  | '(' => openParen
  | ')' => closeParen
  | '+' => operator .add
  | '-' => operator .subtract
  | '*' => operator .multiply
  | '/' => operator .divide
  | '&' => operator .and
  | '|' => operator .or
  | '^' => operator .xor
  | _ => unknown

def ofDigits (ds : List Char) : Token :=
  if Hex.value ds < UInt32.size then number (UInt32.ofNat (Hex.value ds)) else unknown

/-- The token that begins with `c`, and the text after it. -/
def next (c : Char) (cs : List Char) : Token × List Char :=
  if c = '$' then
    match cs.takeWhile Hex.isDigit with
    | [] => (unknown, cs)
    | ds => (ofDigits ds, cs.dropWhile Hex.isDigit)
  else if c = '!' then
    match cs with
    | d :: ds =>
      if isNameStart d then
        (symbol (String.ofList (d :: ds.takeWhile isNameChar)), ds.dropWhile isNameChar)
      else (unknown, cs)
    | [] => (unknown, cs)
  else if isNameStart c then
    (name (String.ofList (c :: cs.takeWhile isNameChar)), cs.dropWhile isNameChar)
  else (ofChar c, cs)

theorem next_suffix (c : Char) (cs : List Char) : (next c cs).2 <:+ cs := by
  unfold next
  split
  · split
    · exact List.suffix_refl cs
    · exact List.dropWhile_suffix _
  · split
    · split
      · split
        · exact (List.dropWhile_suffix _).trans (List.suffix_cons _ _)
        · exact List.suffix_refl _
      · exact List.suffix_refl _
    · split
      · exact List.dropWhile_suffix _
      · exact List.suffix_refl cs

/-- The tokens of a text that begins at `offset`. -/
def scanAt (offset : Nat) : List Char → List Lexeme
  | [] => []
  | c :: cs =>
    if isBlank c then scanAt (offset + c.utf8Size) cs
    else
      let stop := offset + (byteLength (c :: cs) - byteLength (next c cs).2)
      ⟨(next c cs).1, offset, stop⟩ :: scanAt stop (next c cs).2
termination_by cs => cs.length
decreasing_by
  · simp
  · have := (next_suffix c cs).length_le
    simp only [List.length_cons]
    omega

def scan (text : List Char) : List Lexeme := scanAt 0 text

end Token
end Machine16
