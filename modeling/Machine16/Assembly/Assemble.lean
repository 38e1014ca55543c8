import Machine16.Assembly.Chunk
import Machine16.Assembly.Grammar.Statement

/-! From source text to bytes. -/
namespace Machine16

inductive AssemblyError
  | unreadable (e : SyntaxError)
  | uncompilable (e : CompileError)
  deriving DecidableEq, Repr

def AssemblyError.message : AssemblyError → String
  | unreadable e => "syntax error " ++ e.message
  | uncompilable e => "compile error: " ++ e.message

def assemble (source : String) : Except AssemblyError (List Byte) := do
  let p ← (Program.parse source).mapError .unreadable
  p.compile.mapError .uncompilable

end Machine16
