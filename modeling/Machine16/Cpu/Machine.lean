import Machine16.Cpu.Registers
import Machine16.Memory.Device

/-! The processor with the memory that it works on. An operation of the machine may fail, and what
it did before it failed stays. -/
namespace Machine16

/-- What a listener hears of. -/
inductive Event
  | register (r : Register) (value : Word)
  | memory (address value : Word)
  | interrupt (vector : Word)
  | sleep (milliseconds : Word)
  | halt
  deriving DecidableEq, Repr

structure Cpu where
  registers : Registers
  /-- The number of bytes on the stack that belong to the current call. -/
  frameSize : Word := 0
  inHandler : Bool := false
  halted : Bool := false
  /-- The address of the table of interrupt handlers. -/
  vectorTable : Word := 0x1000
  listeners : Nat := 0
  /-- What the listeners have heard so far. -/
  events : Array Event := #[]
  deriving DecidableEq, Repr

namespace Cpu

def stackStart : Word := 0xFFFE

def initial (vectorTable : Word) : Cpu where
  registers := ((Registers.zeros.set .sp stackStart).set .fp stackStart).set .im 0xFFFF
  vectorTable := vectorTable

def get (c : Cpu) (r : Register) : Word := c.registers.get r

def set (c : Cpu) (r : Register) (w : Word) : Cpu := { c with registers := c.registers.set r w }

/-- Every listener hears of an event before the next event. -/
def hear (c : Cpu) (e : Event) : Cpu :=
  { c with events := c.events ++ Array.replicate c.listeners e }

def getByName (c : Cpu) (name : String) : Except UnknownRegister Word :=
  c.get <$> Register.parse name

def setByName (c : Cpu) (name : String) (w : Word) : Except UnknownRegister Cpu :=
  (c.set · w) <$> Register.parse name

end Cpu

structure Machine (μ : Type) where
  cpu : Cpu
  memory : μ

abbrev Exec (μ : Type) : Type → Type := EStateM MemoryError (Machine μ)

namespace Exec

variable {μ : Type}

def cpu : Exec μ Cpu := fun m => .ok m.cpu m

def modifyCpu (f : Cpu → Cpu) : Exec μ Unit
  | ⟨cpu, memory⟩ => .ok () ⟨f cpu, memory⟩

def get (r : Register) : Exec μ Word := fun m => .ok (m.cpu.get r) m

/-- Sets a register without an event. -/
def assign (r : Register) (w : Word) : Exec μ Unit := modifyCpu (·.set r w)

def emit (e : Event) : Exec μ Unit := modifyCpu (·.hear e)

def set (r : Register) (w : Word) : Exec μ Unit := do
  assign r w
  emit (.register r w)

/-- An access to the memory. -/
def onMemory {α : Type} (u : Update μ α) : Exec μ α
  | ⟨cpu, memory⟩ => Update.within (⟨cpu, ·⟩) (u memory)

variable [Addressable μ]

def readByte (address : Word) : Exec μ Byte := onMemory (Addressable.getByte address)

def readWord (address : Word) : Exec μ Word := onMemory (Addressable.getWord address)

def writeWord (address : Word) (w : Word) : Exec μ Unit := onMemory (Addressable.writeWord address w)

/-- A write that is heard of once it is done. -/
def store (address : Word) (w : Word) : Exec μ Unit := do
  writeWord address w
  emit (.memory address w)

/-- Reads the byte at `ip` and moves on, without an event. -/
def fetchByte : Exec μ Byte := do
  let ip ← get .ip
  let b ← readByte ip
  assign .ip (ip + 1)
  return b

def fetchWord : Exec μ Word := do
  let ip ← get .ip
  let w ← readWord ip
  assign .ip (ip + 2)
  return w

def fetchRegister : Exec μ Register := do
  return .ofSelector (← fetchByte)

theorem readByte_eq {μ : Type} [Device μ] (address : Word) (m : Machine μ) :
    readByte address m = Update.ofExcept (Device.readByte m.memory address) m := by
  obtain ⟨cpu, memory⟩ := m
  rw [readByte, onMemory, Device.getByte_eq, Update.within_ofExcept]

theorem readWord_eq {μ : Type} [Device μ] (address : Word) (m : Machine μ) :
    readWord address m = Update.ofExcept (Device.readWord m.memory address) m := by
  obtain ⟨cpu, memory⟩ := m
  rw [readWord, onMemory, Device.getWord_eq, Update.within_ofExcept]

theorem writeWord_eq {μ : Type} [Addressable μ] (address w : Word) (m : Machine μ) :
    writeWord address w m = Update.within (⟨m.cpu, ·⟩) (Addressable.writeWord address w m.memory) := rfl

end Exec
end Machine16
