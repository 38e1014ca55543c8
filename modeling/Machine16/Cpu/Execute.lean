import Machine16.Cpu.Frame
import Machine16.Isa.Opcode

/-! One step of the processor. The operands are fetched as the format of the opcode lists them;
only then does the instruction do anything. -/
namespace Machine16

/-- What a step asks for: the next one, the next one after a pause, or none. -/
inductive Step
  | next
  | sleep (milliseconds : Word)
  | halt
  deriving DecidableEq, Repr

/-- A fetched operand. A register comes with the value that it had when it was fetched. -/
abbrev Slot.Fetched : Slot → Type
  | .literal | .address => Word
  | .byte => Byte
  | .register | .pointer | .indirect => Register × Word

abbrev Format.Fetched : Format → Type
  | [] => Unit
  | s :: f => s.Fetched × Format.Fetched f

namespace Exec

variable {μ : Type} [Addressable μ]

def fetchSelected : Exec μ (Register × Word) := do
  let r ← fetchRegister
  return (r, ← get r)

def fetchSlot : (s : Slot) → Exec μ s.Fetched
  | .literal | .address => fetchWord
  | .byte => fetchByte
  | .register | .pointer | .indirect => fetchSelected

def fetch : (f : Format) → Exec μ (Format.Fetched f)
  | [] => pure ()
  | s :: f => do
    let a ← fetchSlot s
    return (a, ← fetch f)

/-- Jumps if the operand stands in the relation to the accumulator. -/
def jumpIf (relation : Word → Word → Bool) (w address : Word) : Exec μ Unit := do
  if relation w (← get .acc) then set .ip address

/-- Changes a register in place, as it is after all operands have been fetched. -/
def change (r : Register) (f : Word → Word) : Exec μ Unit := do
  set r (f (← get r))

/-- Shifts take their amount modulo 32 and cut the result to a word. -/
def shiftLeft (amount w : Word) : Word := (w.toUInt32 <<< amount.toUInt32).toUInt16

def shiftRight (amount w : Word) : Word := (w.toUInt32 >>> amount.toUInt32).toUInt16

def call (address : Word) : Exec μ Unit := do
  pushState
  set .ip address

def perform : (op : Opcode) → Format.Fetched op.format → Exec μ Unit
  | .movLitReg, (w, r, _) => set r.1 w
  | .movRegReg, (a, r, _) => set r.1 a.2
  | .movRegMem, (a, p, _) => store p a.2
  | .movMemReg, (p, r, _) => do set r.1 (← readWord p)
  | .movLitMem, (w, p, _) => store p w
  | .movRegPtrReg, (p, r, _) => do set r.1 (← readWord p.2)
  | .movLitOffReg, (w, p, r, _) => do set r.1 (← readWord (w + p.2))
  | .movLitRegPtr, (w, p, _) => store p.2 w
  | .addRegReg, (a, b, _) => set .acc (a.2 + b.2)
  | .addLitReg, (w, a, _) => set .acc (w + a.2)
  | .subLitReg, (w, a, _) => set .acc (a.2 - w)
  | .subRegLit, (a, w, _) => set .acc (w - a.2)
  | .subRegReg, (a, b, _) => set .acc (a.2 - b.2)
  | .incReg, (r, _) => change r.1 (· + 1)
  | .decReg, (r, _) => change r.1 (· - 1)
  | .mulLitReg, (w, a, _) => set .acc (w * a.2)
  | .mulRegReg, (a, b, _) => set .acc (a.2 * b.2)
  | .lsfRegLit, (r, b, _) => change r.1 (shiftLeft b.toUInt16)
  | .lsfRegReg, (r, a, _) => change r.1 (shiftLeft a.2)
  | .rsfRegLit, (r, b, _) => change r.1 (shiftRight b.toUInt16)
  | .rsfRegReg, (r, a, _) => change r.1 (shiftRight a.2)
  | .andRegLit, (a, w, _) => set .acc (a.2 &&& w)
  | .andRegReg, (a, b, _) => set .acc (a.2 &&& b.2)
  | .orRegLit, (a, w, _) => set .acc (a.2 ||| w)
  | .orRegReg, (a, b, _) => set .acc (a.2 ||| b.2)
  | .xorRegLit, (a, w, _) => set .acc (a.2 ^^^ w)
  | .xorRegReg, (a, b, _) => set .acc (a.2 ^^^ b.2)
  | .not, (a, _) => set .acc (~~~a.2)
  | .jneLit, (w, p, _) => jumpIf (· != ·) w p
  | .jneReg, (a, p, _) => jumpIf (· != ·) a.2 p
  | .jeqReg, (a, p, _) => jumpIf (· == ·) a.2 p
  | .jeqLit, (w, p, _) => jumpIf (· == ·) w p
  | .jltReg, (a, p, _) => jumpIf (· < ·) a.2 p
  | .jltLit, (w, p, _) => jumpIf (· < ·) w p
  | .jgtReg, (a, p, _) => jumpIf (· > ·) a.2 p
  | .jgtLit, (w, p, _) => jumpIf (· > ·) w p
  | .jleReg, (a, p, _) => jumpIf (· ≤ ·) a.2 p
  | .jleLit, (w, p, _) => jumpIf (· ≤ ·) w p
  | .jgeReg, (a, p, _) => jumpIf (· ≥ ·) a.2 p
  | .jgeLit, (w, p, _) => jumpIf (· ≥ ·) w p
  | .jmp, (p, _) => set .ip p
  | .pshLit, (w, _) => push w
  | .pshReg, (a, _) => push a.2
  | .pop, (r, _) => do set r.1 (← pop)
  | .calLit, (w, _) => call w
  | .calReg, (a, _) => call a.2
  | .ret, _ => popState
  | .slp, (w, _) => emit (.sleep w)
  | .hlt, _ => do
    modifyCpu fun c => { c with halted := true }
    emit .halt
  | .rti, _ => do
    modifyCpu fun c => { c with inHandler := false }
    popState
  | .int, (w, _) => interrupt w

/-- What a step asks for once its instruction is done. -/
def outcome : (op : Opcode) → Format.Fetched op.format → Step
  | .slp, (w, _) => .sleep w
  | .hlt, _ => .halt
  | _, _ => .next

/-- Executes the instruction that a byte names. Other bytes do nothing. -/
def execute (code : Byte) : Exec μ Step :=
  match Opcode.ofByte? code with
  | none => return .next
  | some op => do
    let operands ← fetch op.format
    perform op operands
    return outcome op operands

/-- A halted machine stays as it is. -/
def step : Exec μ Step := do
  if (← cpu).halted then return .halt
  execute (← fetchByte)

end Exec
end Machine16
