import Machine16.Assembly.Scope

/-! Compiled programs. Every data block and every instruction gives one chunk of bytes, and the
chunks follow each other in memory without gaps. -/
namespace Machine16

structure Chunk where
  span : Span
  address : Word
  bytes : List Byte
  deriving DecidableEq, Repr

/-- The bytes of a statement. Labels, constants and structures give no chunk. -/
def Statement.encode (scope : Scope) : Statement → Except CompileError (Option (List Byte))
  | .data _ w _ vs => return some (vs.flatMap w.encode)
  | .instruction i => return some (← scope.resolve i).encode
  | .label _ | .constant .. | .struct .. => return none

namespace Program

/-- The chunks of statements that begin at `address`. -/
def encode (scope : Scope) (address : Word) : Program → Except CompileError (List Chunk)
  | [] => return []
  | n :: p => do
    match ← n.statement.encode scope with
    | none => encode scope address p
    | some bytes =>
      let rest ← encode scope (address + UInt16.ofNat bytes.length) p
      return ⟨n.span, address, bytes⟩ :: rest

def chunks (p : Program) : Except CompileError (List Chunk) := do
  encode (← Scope.ofProgram p) 0 p

def compile (p : Program) : Except CompileError (List Byte) :=
  (List.flatMap Chunk.bytes) <$> p.chunks

end Program
end Machine16
