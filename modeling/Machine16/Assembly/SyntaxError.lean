import Machine16.Assembly.Grouping

/-! Where and why a source is not a program. -/
namespace Machine16

/-- The statements that are declarations. -/
inductive Declaration
  | data | struct | constant
  deriving DecidableEq, Repr

def Declaration.description : Declaration → String
  | data => "data declaration"
  | struct => "structure"
  | constant => "constant"

inductive SyntaxProblem
  | unexpectedInput
  /-- A number of more than 32 bits. -/
  | literalTooLarge
  /-- An expression that is wrong `offset` bytes after its opening bracket. -/
  | expression (offset : Nat) (problem : Grouping.Problem)
  | operands (mnemonic : String)
  deriving DecidableEq, Repr

def SyntaxProblem.message : SyntaxProblem → String
  | unexpectedInput => "unexpected input"
  | literalTooLarge => "literal too large"
  | expression offset p => "invalid expression at offset " ++ toString offset ++ ": " ++ p.message
  | operands mnemonic => "operands do not match any form of '" ++ mnemonic ++ "'"

/-- A problem, and the declaration that it is in. -/
structure Reason where
  problem : SyntaxProblem
  within : Option Declaration := none
  deriving DecidableEq, Repr

def Reason.message (r : Reason) : String :=
  match r.within with
  | none => r.problem.message
  | some d => r.problem.message ++ ": invalid " ++ d.description

structure SyntaxError where
  location : Location
  reason : Reason
  /-- The beginning of the text at the location. -/
  excerpt : String
  deriving DecidableEq, Repr

namespace SyntaxError

/-- Twenty characters, or fewer where the line ends before. -/
def excerptOf (text : List Char) : String := String.ofList ((text.takeWhile (· != '\n')).take 20)

/-- The place of an error after one more character of the text before it. -/
def advance (l : Location) (c : Char) : Location :=
  let ⟨line, column⟩ := if c = '\n' then ⟨l.line + 1, 0⟩ else l
  ⟨line, column + 1⟩

/-- The error at the ending `unread` of a source. Its place is found by the length of this ending. -/
def locate (source unread : List Char) (reason : Reason) : SyntaxError :=
  let start := byteLength source - byteLength unread
  ⟨(takeBytes start source).foldl advance ⟨1, 1⟩, reason, excerptOf (dropBytes start source)⟩

def message (e : SyntaxError) : String :=
  "at line " ++ toString e.location.line ++ " col " ++ toString e.location.column ++ ": "
    ++ e.reason.message ++ ", at '" ++ e.excerpt ++ "'"

/-- The message without line and column. It does not tell which declaration the problem is in. -/
def brief (e : SyntaxError) : String := e.reason.problem.message ++ " at: " ++ e.excerpt

end SyntaxError
end Machine16
