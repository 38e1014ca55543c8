import Std.Data.HashMap
import Machine16.Assembly.Chunk

/-! For every address the place in the source that the byte there comes from. Where a program of
more than 64 KiB wraps, the last byte counts. -/
namespace Machine16

structure SourceMap (α : Type) where
  entries : Std.HashMap Word α

namespace SourceMap

variable {α : Type}

def get? (m : SourceMap α) (address : Word) : Option α := m.entries[address]?

def size (m : SourceMap α) : Nat := m.entries.size

def isEmpty (m : SourceMap α) : Bool := m.entries.isEmpty

/-- Later entries replace earlier ones. -/
def ofList (entries : List (Word × α)) : SourceMap α :=
  ⟨entries.foldl (fun m e => m.insert e.1 e.2) ∅⟩

/-- All bytes of a chunk come from its span. -/
def ofChunks (cs : List Chunk) : SourceMap Span :=
  ofList (cs.flatMap fun c =>
    (List.range c.bytes.length).map fun i => (c.address + UInt16.ofNat i, c.span))

/-- Line numbers in the place of offsets. There is no such map if a span begins or ends inside of a
character of the text. -/
def lines? (text : List Char) (m : SourceMap Span) : Option (SourceMap LineSpan) :=
  if m.entries.all fun _ span => (span.lines? text).isSome then
    some ⟨m.entries.filterMap fun _ span => span.lines? text⟩
  else none

end SourceMap

/-- The bytes of a program together with the places that they come from. -/
def Program.compileMapped (p : Program) : Except CompileError (List Byte × SourceMap Span) := do
  let cs ← p.chunks
  return (cs.flatMap Chunk.bytes, .ofChunks cs)

def Program.sourceMap (p : Program) : Except CompileError (SourceMap Span) :=
  Prod.snd <$> p.compileMapped

end Machine16
