import Machine16.Assembly.Instruction

/-! Encoded programs as sequences of instructions. The first byte lies at address 0, and
addresses wrap after 64 KiB. -/
namespace Machine16

def DecodeError.message : DecodeError → String
  | unknownOpcode address b =>
    "unknown opcode 0x" ++ Hex.format 2 b.toNat ++ " at 0x" ++ Hex.format 4 address.toNat
  | truncated address op => "truncated " ++ op.name ++ " at 0x" ++ Hex.format 4 address.toNat

namespace Listing

/-- Whether the bytes at `address` are whole instructions. -/
def validateAt (address : Word) : List Byte → Except DecodeError Unit
  | [] => .ok ()
  | code :: bs =>
    match h : Instruction.decode address code bs with
    | .error e => .error e
    | .ok (i, rest) =>
      have := Instruction.length_lt_of_decode h
      validateAt (address + UInt16.ofNat i.opcode.size) rest
termination_by bs => bs.length
decreasing_by assumption

def validate (bytes : List Byte) : Except DecodeError Unit := validateAt 0 bytes

/-- Adds the instructions at `address` to those before, the last of which comes first. -/
def disassembleAt (before : List (Word × Instruction Word)) (address : Word) :
    List Byte → Except DecodeError (List (Word × Instruction Word))
  | [] => .ok before.reverse
  | code :: bs =>
    match h : Instruction.decode address code bs with
    | .error e => .error e
    | .ok (i, rest) =>
      have := Instruction.length_lt_of_decode h
      disassembleAt ((address, i) :: before) (address + UInt16.ofNat i.opcode.size) rest
termination_by bs => bs.length
decreasing_by assumption

/-- The instructions with their addresses. -/
def disassemble (bytes : List Byte) : Except DecodeError (List (Word × Instruction Word)) :=
  disassembleAt [] 0 bytes

/-- The bytes in rows of eight. Here addresses do not wrap. -/
def dumpRows (address : Nat) (bytes : List Byte) : List String :=
  match bytes with
  | [] => []
  | b :: bs =>
    ("0x" ++ Hex.format 4 address ++ ":"
      ++ String.join ((b :: bs.take 7).map fun b => " " ++ Hex.format 2 b.toNat) ++ "\n")
    :: dumpRows (address + 8) (bs.drop 7)
termination_by bytes.length

def line (address : Word) (i : Instruction Word) : String :=
  "0x" ++ Hex.format 4 address.toNat ++ ": " ++ i.symbolic.print ++ "\n"

/-- One instruction a line, or the bytes themselves if they are not all instructions. -/
def print (bytes : List Byte) : String :=
  match disassemble bytes with
  | .ok is => String.join (is.map fun (address, i) => line address i)
  | .error _ => String.join (dumpRows 0 bytes)

end Listing
end Machine16
