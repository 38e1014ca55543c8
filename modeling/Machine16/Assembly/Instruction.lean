import Machine16.Assembly.Expression
import Machine16.Isa.Instruction

/-! The written form of instructions. -/
namespace Machine16

namespace Operand

/-- A number has four digits, anything else stands in brackets. -/
def printLiteral : Expression → String
  | .literal v => "$" ++ Hex.format 4 v.toNat
  | e => "[" ++ e.print ++ "]"

def printAddress : Expression → String
  | .literal v => "&" ++ Hex.format 4 v.toNat
  | e => "&[" ++ e.print ++ "]"

def print : Operand Expression → String
  | literal e | byte e => printLiteral e
  | address e => printAddress e
  | register r => r.name
  | pointer r => "&" ++ r.name
  | indirect r => "&(" ++ r.name ++ ")"

end Operand

/-- The instruction with its words written as numbers. -/
def Instruction.symbolic (i : Instruction Word) : Instruction Expression :=
  i.map fun w => .literal w.toUInt32

def Instruction.print (i : Instruction Expression) : String :=
  match i.operands with
  | [] => i.opcode.mnemonic
  | os => i.opcode.mnemonic ++ " " ++ ", ".intercalate (os.map Operand.print)

end Machine16
