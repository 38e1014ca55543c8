import Machine16.Assembly.Assemble
import Machine16.Assembly.Listing
import Machine16.Computer
import Machine16.Cpu.Inspect
import Machine16.Cpu.Run

/-! The command line: `assemble SOURCE [OUTPUT]` writes the bytes of a program, or lists them, and
`run SOURCE [VECTORS]` runs a program that is either assembly source, in a file that ends in
`.asm`, or bytes. The interrupt handlers are listed at the hexadecimal address VECTORS. -/
namespace Machine16.Main

def complain (message : String) : IO UInt32 := do
  (← IO.getStderr).putStrLn message
  return 1

def assembleFile (path : String) (output : Option String) : IO UInt32 := do
  match assemble (← IO.FS.readFile path) with
  | .error e => complain e.message
  | .ok bytes =>
    match output with
    | none => IO.print (Listing.print bytes)
    | some output => IO.FS.writeBinFile output ⟨bytes.toArray⟩
    return 0

/-- An address of at most sixteen bits, with or without a leading 0x. -/
def address? (text : String) : Option Word :=
  let digits :=
    match text.toList with
    | '0' :: 'x' :: ds => ds
    | ds => ds
  if digits.isEmpty || !digits.all Hex.isDigit || Hex.value digits > 0xFFFF then none
  else some (UInt16.ofNat (Hex.value digits))

/-- Shows the bytes of the screen from the `shown`th on, and says how many there are now. -/
def refresh (shown : Nat) (b : Bus Peripheral) : IO Nat := do
  let bytes := Computer.output b
  if shown < bytes.size then
    let out ← IO.getStdout
    out.write ⟨bytes.extract shown bytes.size⟩
    out.flush
  return bytes.size

/-- Runs a machine until it halts, and waits where it asks for it. -/
partial def watch (shown : Nat) (m : Machine (Bus Peripheral)) : IO UInt32 := do
  match Exec.step m with
  | .error e m =>
    let _ ← refresh shown m.memory
    complain ("execution error: " ++ e.machineMessage)
  | .ok s m =>
    let shown ← refresh shown m.memory
    match s with
    | .halt => return 0
    | .sleep ms =>
      IO.sleep ms.toNat.toUInt32
      watch shown m
    | .next => watch shown m

def runBytes (bytes : List Byte) (vectorTable : Word) : IO UInt32 :=
  match Computer.boot bytes vectorTable with
  | .error e => complain ("execution error: " ++ e.machineMessage)
  | .ok m => watch 0 m

def runFile (path : String) (vectorTable : Word) : IO UInt32 := do
  if path.endsWith ".asm" then
    match assemble (← IO.FS.readFile path) with
    | .error e => complain e.message
    | .ok bytes => runBytes bytes vectorTable
  else runBytes (← IO.FS.readBinFile path).toList vectorTable

def usage : String :=
  "usage: assemble SOURCE [OUTPUT]\n       run SOURCE [VECTORS]"

end Machine16.Main

open Machine16 in
def main (arguments : List String) : IO UInt32 := do
  try
    match arguments with
    | ["assemble", source] => Main.assembleFile source none
    | ["assemble", source, output] => Main.assembleFile source (some output)
    | ["run", source] => Main.runFile source 0x1000
    | ["run", source, vectors] =>
      match Main.address? vectors with
      | none => Main.complain ("invalid interrupt vector address '" ++ vectors ++ "'")
      | some address => Main.runFile source address
    | _ => Main.complain Main.usage
  catch e => Main.complain ("IO error: " ++ e.toString)
