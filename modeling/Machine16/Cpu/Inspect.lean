import Machine16.Cpu.Machine
import Machine16.Text.Hex

/-! Machines in text. -/
namespace Machine16

/-- The message of an operation of the machine that failed. -/
def MemoryError.machineMessage (e : MemoryError) : String := "memory error: " ++ e.message

/-- All registers, one a line. -/
def Cpu.dump (c : Cpu) : String :=
  String.join (Register.all.map fun r =>
    String.ofList (r.name.toList.rightpad 3 ' ') ++ ": 0x" ++ Hex.format 4 (c.get r).toNat ++ "\n")

/-- Bytes of a memory in one line. Addresses wrap. -/
def viewMemory {μ : Type} [Addressable μ] (address : Word) (count : Nat) : Update μ String := do
  let bytes ← (List.range count).mapM fun i => Addressable.getByte (address + UInt16.ofNat i)
  return "0x" ++ Hex.format 4 address.toNat ++ ":"
    ++ String.join (bytes.map fun b => " 0x" ++ Hex.format 2 b.toNat)

end Machine16
