import Mathlib.Logic.Function.Basic
import Machine16.Cpu.Execute
import Machine16.Isa.Instruction

/-! What instructions mean, said of decoded instructions and without fetching. A program sees the
registers, the size of the frame, the flags and the memory; listeners are left out. An action is
what an instruction comes down to once its operands have values, and it has no result if the memory
refuses an access. -/
namespace Machine16

/-- What a program can tell of a machine. -/
structure View (μ : Type) where
  reg : Register → Word
  frameSize : Word
  inHandler : Bool
  halted : Bool
  vectorTable : Word
  memory : μ

def Machine.view {μ : Type} (m : Machine μ) : View μ :=
  ⟨m.cpu.get, m.cpu.frameSize, m.cpu.inHandler, m.cpu.halted, m.cpu.vectorTable, m.memory⟩

namespace View

variable {μ : Type}

def set (v : View μ) (r : Register) (w : Word) : View μ :=
  { v with reg := Function.update v.reg r w }

/-- The view with another stack pointer and another size of the frame. -/
def withStack (v : View μ) (sp frameSize : Word) : View μ :=
  { v with reg := Function.update v.reg .sp sp, frameSize }

variable [Device μ]

def readWord? (v : View μ) (address : Word) : Option Word :=
  (Device.readWord v.memory address).toOption

def writeWord? (v : View μ) (address w : Word) : Option (View μ) :=
  match Device.writeWord address w v.memory with
  | .ok () memory => some { v with memory }
  | .error _ _ => none

/-- Pushes words, each of them below the one before. -/
def pushAll? : List Word → View μ → Option (View μ)
  | [], v => some v
  | w :: ws, v => do
    let v ← v.writeWord? (v.reg .sp) w
    pushAll? ws (v.withStack (v.reg .sp - 2) (v.frameSize + 2))

/-- The words from an address upwards. -/
def wordsFrom? (v : View μ) (address : Word) : Nat → Option (List Word)
  | 0 => some []
  | n + 1 => do
    let w ← v.readWord? address
    let ws ← v.wordsFrom? (address + 2) n
    return w :: ws

/-- The words of a new frame in the order in which they are pushed. The size that is saved counts
the frame itself. -/
def frame (v : View μ) : List Word :=
  Register.general.map v.reg ++ [v.reg .ip, v.frameSize + 20]

/-- Begins a frame and goes on elsewhere. -/
def enter? (v : View μ) (address : Word) : Option (View μ) := do
  let v ← v.pushAll? v.frame
  return ((v.withStack (v.reg .sp) 0).set .fp (v.reg .sp)).set .ip address

/-- Ends the frame at `fp` and drops as many words above it as its last word says. -/
def leave? (v : View μ) : Option (View μ) :=
  let base := v.reg .fp
  match v.wordsFrom? (base + 2) 11 with
  | some [size, ip, r8, r7, r6, r5, r4, r3, r2, r1, arguments] => do
    let _ ← v.wordsFrom? (base + 24) arguments.toNat
    let sp := base + 22 + 2 * arguments
    let reg : Register → Word
      | .r1 => r1 | .r2 => r2 | .r3 => r3 | .r4 => r4
      | .r5 => r5 | .r6 => r6 | .r7 => r7 | .r8 => r8
      | .sp => sp | .fp => base + size | .ip => ip
      | r => v.reg r
    return { v with reg, frameSize := base + size - sp }
  | _ => none

/-- Whether `im` lets an interrupt through. Four bits of the vector count. -/
def enabled (v : View μ) (vector : Word) : Bool := (v.reg .im).toNat.testBit (vector.toNat % 16)

/-- Goes to a handler. Only the first one begins a frame, to which no arguments belong. -/
def handle? (v : View μ) (handler : Word) : Option (View μ) :=
  if v.inHandler then some (v.set .ip handler)
  else do
    let v ← v.pushAll? [0]
    let v ← v.enter? handler
    return { v with inHandler := true }

/-- An interrupt that is let through goes to its handler. -/
def interrupt? (v : View μ) (vector : Word) : Option (View μ) :=
  if v.enabled vector then do
    let handler ← v.readWord? (v.vectorTable + 2 * (vector % 16))
    v.handle? handler
  else some v

end View

/-- What an instruction comes down to. -/
inductive Action
  | assign (r : Register) (w : Word)
  /-- Works on a register in place. -/
  | change (r : Register) (f : Word → Word)
  | load (r : Register) (address : Word)
  | store (address w : Word)
  | jump (address : Word)
  /-- A jump that is not taken. -/
  | stay
  | push (w : Word)
  | pop (r : Register)
  | call (address : Word)
  | ret
  | interrupt (vector : Word)
  | rti
  | sleep (milliseconds : Word)
  | halt

namespace Action

variable {μ : Type} [Device μ]

/-- What is left of a machine on which `ip` has moved past the instruction. -/
def run? (v : View μ) : Action → Option (View μ)
  | assign r w => some (v.set r w)
  | change r f => some (v.set r (f (v.reg r)))
  | load r address => do
    let w ← v.readWord? address
    return v.set r w
  | store address w => v.writeWord? address w
  | jump address => some (v.set .ip address)
  | stay => some v
  | push w => v.pushAll? [w]
  | pop r => do
    let sp := v.reg .sp + 2
    let w ← v.readWord? sp
    return (v.withStack sp (v.frameSize - 2)).set r w
  | call address => v.enter? address
  | ret => v.leave?
  | interrupt vector => v.interrupt? vector
  | rti => do
    let v ← v.leave?
    return { v with inHandler := false }
  | sleep _ => some v
  | halt => some { v with halted := true }

/-- What the driver is asked for afterwards. -/
def asks : Action → Step
  | sleep milliseconds => .sleep milliseconds
  | halt => .halt
  | _ => .next

/-- Whether the action decides itself where the program goes on. -/
def redirects (v : View μ) : Action → Bool
  | assign r _ | change r _ | load r _ | pop r => r = .ip
  | jump _ | call _ | ret | rti => true
  | interrupt vector => v.enabled vector
  | store .. | stay | push _ | sleep _ | halt => false

end Action

namespace Operand

/-- The value of an operand. -/
def word (reg : Register → Word) : Operand Word → Word
  | literal w | byte w | address w => w
  | register r | pointer r | indirect r => reg r

/-- Operands with their values. They are read one after the other, so that `ip`, if it is one of
them, has moved past it but not past those that follow. -/
def readings (reg : Register → Word) (ip : Word) : List (Operand Word) → List (Operand Word × Word)
  | [] => []
  | o :: os =>
    let next := ip + UInt16.ofNat o.slot.width
    (o, o.word (Function.update reg .ip next)) :: readings reg next os

end Operand

namespace Word

/-- Shifts take their amount modulo 32. What leaves the word is lost. -/
def shiftedLeft (amount w : Word) : Word := UInt16.ofNat (w.toNat <<< (amount.toNat % 32))

def shiftedRight (amount w : Word) : Word := UInt16.ofNat (w.toNat >>> (amount.toNat % 32))

end Word

namespace Instruction

/-- The table of what instructions do, with the values of their operands in the order in which they
are written. -/
def action? (reg : Register → Word) (i : Instruction Word) : Option Action :=
  match i.opcode, Operand.readings reg (reg .ip + 1) i.operands with
  | .movLitReg, [(_, a), (.register r, _)] | .movRegReg, [(_, a), (.register r, _)] =>
    some (.assign r a)
  | .movMemReg, [(_, p), (.register r, _)] | .movRegPtrReg, [(_, p), (.register r, _)] =>
    some (.load r p)
  | .movLitOffReg, [(_, a), (_, b), (.register r, _)] => some (.load r (a + b))
  | .movRegMem, [(_, a), (_, p)] | .movLitMem, [(_, a), (_, p)] | .movLitRegPtr, [(_, a), (_, p)] =>
    some (.store p a)
  | .addRegReg, [(_, a), (_, b)] | .addLitReg, [(_, a), (_, b)] => some (.assign .acc (a + b))
  | .subLitReg, [(_, a), (_, b)] | .subRegLit, [(_, a), (_, b)] => some (.assign .acc (b - a))
  | .subRegReg, [(_, a), (_, b)] => some (.assign .acc (a - b))
  | .mulLitReg, [(_, a), (_, b)] | .mulRegReg, [(_, a), (_, b)] => some (.assign .acc (a * b))
  | .andRegLit, [(_, a), (_, b)] | .andRegReg, [(_, a), (_, b)] => some (.assign .acc (a &&& b))
  | .orRegLit, [(_, a), (_, b)] | .orRegReg, [(_, a), (_, b)] => some (.assign .acc (a ||| b))
  | .xorRegLit, [(_, a), (_, b)] | .xorRegReg, [(_, a), (_, b)] => some (.assign .acc (a ^^^ b))
  | .not, [(_, a)] => some (.assign .acc (~~~a))
  | .incReg, [(.register r, _)] => some (.change r (· + 1))
  | .decReg, [(.register r, _)] => some (.change r (· - 1))
  | .lsfRegLit, [(.register r, _), (_, k)] | .lsfRegReg, [(.register r, _), (_, k)] =>
    some (.change r (Word.shiftedLeft k))
  | .rsfRegLit, [(.register r, _), (_, k)] | .rsfRegReg, [(.register r, _), (_, k)] =>
    some (.change r (Word.shiftedRight k))
  | .jneLit, [(_, a), (_, p)] | .jneReg, [(_, a), (_, p)] =>
    some (if a ≠ reg .acc then .jump p else .stay)
  | .jeqLit, [(_, a), (_, p)] | .jeqReg, [(_, a), (_, p)] =>
    some (if a = reg .acc then .jump p else .stay)
  | .jltLit, [(_, a), (_, p)] | .jltReg, [(_, a), (_, p)] =>
    some (if a < reg .acc then .jump p else .stay)
  | .jgtLit, [(_, a), (_, p)] | .jgtReg, [(_, a), (_, p)] =>
    some (if a > reg .acc then .jump p else .stay)
  | .jleLit, [(_, a), (_, p)] | .jleReg, [(_, a), (_, p)] =>
    some (if a ≤ reg .acc then .jump p else .stay)
  | .jgeLit, [(_, a), (_, p)] | .jgeReg, [(_, a), (_, p)] =>
    some (if a ≥ reg .acc then .jump p else .stay)
  | .jmp, [(_, p)] => some (.jump p)
  | .pshLit, [(_, a)] | .pshReg, [(_, a)] => some (.push a)
  | .pop, [(.register r, _)] => some (.pop r)
  | .calLit, [(_, p)] | .calReg, [(_, p)] => some (.call p)
  | .ret, [] => some .ret
  | .slp, [(_, a)] => some (.sleep a)
  | .hlt, [] => some .halt
  | .rti, [] => some .rti
  | .int, [(_, a)] => some (.interrupt a)
  | _, _ => none

variable {μ : Type} [Device μ]

/-- What an instruction at `ip` leaves of a machine, and what it asks of the driver. -/
def effect? (i : Instruction Word) (v : View μ) : Option (Step × View μ) := do
  let a ← i.action? v.reg
  let v ← a.run? (v.set .ip (v.reg .ip + UInt16.ofNat i.opcode.size))
  return (a.asks, v)

end Instruction
end Machine16
