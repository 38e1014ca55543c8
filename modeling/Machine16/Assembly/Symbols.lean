import Machine16.Assembly.Bindings
import Machine16.Assembly.CompileError
import Machine16.Text.EditDistance
import Machine16.Word

/-! Symbols stand for words, structures for the offsets of their members. A symbol that is not
bound is reported with the bound name nearest to it. -/
namespace Machine16

inductive SymbolKind
  | label | constant | data
  deriving DecidableEq, Repr

structure Symbol where
  kind : SymbolKind
  value : Word
  exported : Bool
  defined : Option Span
  deriving DecidableEq, Repr

abbrev SymbolTable := Bindings Symbol

namespace SymbolTable

/-- The largest distance at which a name still counts as a misspelling. -/
def reach (name : String) : Nat := max 2 (name.utf8ByteSize / 3)

/-- Of two names with their distances, the nearer one, or the first in the alphabet. -/
def nearer (a b : Nat × String) : Nat × String :=
  if a.1 < b.1 ∨ a.1 = b.1 ∧ a.2 ≤ b.2 then a else b

def nearest? (name : String) (candidates : List String) : Option String :=
  let near := candidates.filterMap fun c =>
    let d := EditDistance.distance name.toList c.toList
    if d ≤ reach name then some (d, c) else none
  match near with
  | [] => none
  | n :: ns => some (ns.foldl nearer n).2

def define (t : SymbolTable) (name : String) (s : Symbol) : Except CompileError SymbolTable :=
  match t.define? name s with
  | some t => .ok t
  | none => .error (.duplicateBinding name s.defined)

def resolve (t : SymbolTable) (name : String) : Except CompileError Word :=
  match t.get? name with
  | some s => .ok s.value
  | none => .error (.unresolvedSymbol name (nearest? name t.names))

end SymbolTable

/-- The members of a structure with their offsets. -/
structure StructLayout where
  members : List (String × Word)
  exported : Bool
  defined : Option Span
  deriving DecidableEq, Repr

namespace StructLayout

/-- Every member begins where the one before it ends. -/
def offsets (start : Word) : List (String × UInt32) → List (String × Word)
  | [] => []
  | (name, size) :: ms => (name, start) :: offsets (start + size.toUInt16) ms

def ofSizes (members : List (String × UInt32)) (exported : Bool) (defined : Option Span) :
    StructLayout :=
  ⟨offsets 0 members, exported, defined⟩

/-- The offset of the first member of that name. -/
def offset? (s : StructLayout) (member : String) : Option Word := s.members.lookup member

end StructLayout

abbrev StructTable := Bindings StructLayout

namespace StructTable

def define (t : StructTable) (name : String) (s : StructLayout) :
    Except CompileError StructTable :=
  match t.define? name s with
  | some t => .ok t
  | none => .error (.duplicateBinding name s.defined)

def resolve (t : StructTable) (struct member : String) : Except CompileError Word :=
  match t.get? struct with
  | none => .error (.unknownStructure struct)
  | some s =>
    match s.offset? member with
    | none => .error (.unknownMember struct member)
    | some offset => .ok offset

end StructTable
end Machine16
