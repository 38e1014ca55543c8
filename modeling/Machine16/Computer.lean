import Machine16.Cpu.Machine
import Machine16.Memory.Bus
import Machine16.Memory.Peripheral

/-! A computer: a processor on a bus with 64 KiB of memory, a screen over part of it, and a program
that begins at address 0. -/
namespace Machine16.Computer

/-- Device 0 is the memory, device 1 the screen. -/
def connect (screen : Screen) : Update (Bus Peripheral) Unit := do
  modify fun b => (b.attach (.ram (.zeros 0x10000))).attach (.screen screen)
  let _ ← Bus.map 0 0 0xFFFF true
  let _ ← Bus.map 1 0x3000 0x31FF true

def boot (program : List Byte) (vectorTable : Word) :
    Except MemoryError (Machine (Bus Peripheral)) :=
  match (do connect {}; Bus.load 0 program : Update (Bus Peripheral) Unit) {} with
  | .ok () bus => .ok ⟨.initial vectorTable, bus⟩
  | .error e _ => .error e

/-- What the screen has written so far. -/
def output (b : Bus Peripheral) : Array Byte :=
  match b.devices[1]? with
  | some (Peripheral.screen s) => s.output
  | _ => #[]

end Machine16.Computer
