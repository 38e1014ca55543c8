import Machine16.Assembly.Instruction
import Machine16.Text.Location

/-! Assembly programs as lists of statements, each with its place in the source, and their
written form. -/
namespace Machine16

/-- The width of the elements of a data block. -/
inductive DataWidth
  | byte | word
  deriving DecidableEq, Repr

namespace DataWidth

def keyword : DataWidth → String
  | byte => "data8"
  | word => "data16"

/-- The size of one element in bytes. -/
def size : DataWidth → Nat
  | byte => 1
  | word => 2

/-- Elements keep their low bits. -/
def encode : DataWidth → UInt32 → List Byte
  | byte, v => [v.toUInt8]
  | word, v => Word.bytes v.toUInt16

@[simp] theorem length_encode (w : DataWidth) (v : UInt32) : (w.encode v).length = w.size := by
  cases w <;> rfl

end DataWidth

inductive Statement
  | label (name : String)
  | constant (exported : Bool) (name : String) (value : UInt32)
  | data (exported : Bool) (width : DataWidth) (name : String) (values : List UInt32)
  /-- The members of a structure with their sizes. -/
  | struct (exported : Bool) (name : String) (members : List (String × UInt32))
  | instruction (i : Instruction Expression)
  deriving DecidableEq, Repr

structure Node where
  statement : Statement
  span : Span
  deriving DecidableEq, Repr

abbrev Program := List Node

def exportMark (exported : Bool) : String := if exported then "+" else ""

/-- The text of a list in braces. -/
def braced (items : List String) : String := "\x7b " ++ ", ".intercalate items ++ " \x7d"

def Statement.print : Statement → String
  | label n => n ++ ":"
  | constant ex n v => exportMark ex ++ "constant " ++ n ++ " = $" ++ Hex.format 4 v.toNat
  | data ex w n vs =>
    exportMark ex ++ w.keyword ++ " " ++ n ++ " = "
      ++ braced (vs.map fun v => "$" ++ Hex.format 2 v.toNat)
  | struct ex n ms =>
    exportMark ex ++ "structure " ++ n ++ " "
      ++ braced (ms.map fun m => m.1 ++ ": $" ++ Hex.format 2 m.2.toNat)
  | instruction i => i.print

/-- One statement a line. -/
def Program.print (p : Program) : String := String.join (p.map fun n => n.statement.print ++ "\n")

end Machine16
