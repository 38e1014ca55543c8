import Machine16.Assembly.Expression
import Machine16.Isa.Opcode
import Machine16.Text.Location

/-! What can be wrong with a program that has been read. -/
namespace Machine16

inductive CompileError
  /-- A declaration of a name that is bound already. -/
  | duplicateBinding (name : String) (span : Option Span)
  | unresolvedSymbol (name : String) (suggestion : Option String)
  | unknownStructure (name : String)
  | unknownMember (struct member : String)
  | unsupportedOperator (operator : Operator)
  /-- Operands that are not in the format of their opcode. -/
  | formatMismatch (opcode : Opcode)
  deriving DecidableEq, Repr

def CompileError.message : CompileError → String
  | duplicateBinding n _ =>
    "can't bind '" ++ n ++ "' because a binding with this name already exists"
  | unresolvedSymbol n (some s) =>
    "symbol '" ++ n ++ "' wasn't resolved (did you mean '" ++ s ++ "'?)"
  | unresolvedSymbol n none => "symbol '" ++ n ++ "' wasn't resolved"
  | unknownStructure n => "structure '" ++ n ++ "' wasn't resolved"
  | unknownMember s m => "member '" ++ m ++ "' in structure '" ++ s ++ "' wasn't resolved"
  | unsupportedOperator op => "unsupported binary operation '" ++ op.symbol ++ "'"
  | formatMismatch op => "operands do not match the format of " ++ op.name

end Machine16
