import Machine16.Assembly.Program
import Machine16.Assembly.Symbols

/-! The names of a program. One pass over the statements gives every label and data block its
address, so that later expressions may refer to names that are declared after them. -/
namespace Machine16

structure Scope where
  symbols : SymbolTable := .empty
  structs : StructTable := .empty
  /-- The address of the next statement. -/
  address : Word := 0

namespace Scope

/-- Symbols and structures share their names. -/
def contains (s : Scope) (name : String) : Bool :=
  s.symbols.contains name || s.structs.contains name

def bindSymbol (s : Scope) (name : String) (symbol : Symbol) : Except CompileError Scope := do
  if s.contains name then throw (.duplicateBinding name symbol.defined)
  return { s with symbols := ← s.symbols.define name symbol }

def bindStruct (s : Scope) (name : String) (layout : StructLayout) : Except CompileError Scope := do
  if s.contains name then throw (.duplicateBinding name layout.defined)
  return { s with structs := ← s.structs.define name layout }

/-- Addresses wrap after 64 KiB. -/
def advance (s : Scope) (bytes : Word) : Scope := { s with address := s.address + bytes }

def bind (s : Scope) (n : Node) : Except CompileError Scope :=
  match n.statement with
  | .label name => s.bindSymbol name ⟨.label, s.address, false, n.span⟩
  | .constant ex name v => s.bindSymbol name ⟨.constant, v.toUInt16, ex, n.span⟩
  | .data ex w name vs => do
    let s ← s.bindSymbol name ⟨.data, s.address, ex, n.span⟩
    return s.advance (UInt16.ofNat w.size * UInt16.ofNat vs.length)
  | .struct ex name ms => s.bindStruct name (.ofSizes ms ex n.span)
  | .instruction i => return s.advance (UInt16.ofNat i.opcode.size)

def ofProgram (p : Program) : Except CompileError Scope := p.foldlM bind {}

/-- Every result is cut to a word. Division and the bitwise operators have no value. -/
def evaluate (s : Scope) : Expression → Except CompileError Word
  | .literal v => return v.toUInt16
  | .symbol name => s.symbols.resolve name
  | .member struct name member => do
    let offset ← s.structs.resolve struct member
    let base ← s.symbols.resolve name
    return base + offset
  | .binary op left right => do
    let a ← s.evaluate left
    let b ← s.evaluate right
    match op with
    | .add => return a + b
    | .subtract => return a - b
    | .multiply => return a * b
    | op => throw (.unsupportedOperator op)

/-- A literal of one byte keeps the low byte of its value. -/
def evaluateOperand (s : Scope) : Operand Expression → Except CompileError (Operand Word)
  | .literal e => return .literal (← s.evaluate e)
  | .byte e => return .byte (Word.low (← s.evaluate e)).toUInt16
  | .address e => return .address (← s.evaluate e)
  | .register r => return .register r
  | .pointer r => return .pointer r
  | .indirect r => return .indirect r

/-- The instruction with the values of its operands. The format is checked first. -/
def resolve (s : Scope) (i : Instruction Expression) : Except CompileError (Instruction Word) := do
  if i.format ≠ i.opcode.format then throw (.formatMismatch i.opcode)
  return ⟨i.opcode, ← i.operands.mapM s.evaluateOperand⟩

end Scope
end Machine16
