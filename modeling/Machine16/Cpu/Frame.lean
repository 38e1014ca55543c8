import Machine16.Cpu.Machine

/-! The stack and the frames of calls and interrupts. The stack grows down, and `sp` is the address
below the last word. A frame holds the general registers, the address to return to and the size
of the frame before; below the frame lies the number of arguments that the caller has pushed. -/
namespace Machine16.Exec

variable {μ : Type} [Addressable μ]

def resizeFrame (f : Word → Word) : Exec μ Unit :=
  modifyCpu fun c => { c with frameSize := f c.frameSize }

def push (w : Word) : Exec μ Unit := do
  let sp ← get .sp
  store sp w
  set .sp (sp - 2)
  resizeFrame (· + 2)

def pop : Exec μ Word := do
  let sp := (← get .sp) + 2
  set .sp sp
  resizeFrame (· - 2)
  readWord sp

def pushRegisters : List Register → Exec μ Unit
  | [] => pure ()
  | r :: rs => do
    push (← get r)
    pushRegisters rs

def popRegisters : List Register → Exec μ Unit
  | [] => pure ()
  | r :: rs => do
    set r (← pop)
    popRegisters rs

/-- Drops words from the stack. -/
def drop : Nat → Exec μ Unit
  | 0 => pure ()
  | n + 1 => do
    let _ ← pop
    drop n

/-- Begins a frame. -/
def pushState : Exec μ Unit := do
  pushRegisters Register.general
  push (← get .ip)
  push ((← cpu).frameSize + 2)
  set .fp (← get .sp)
  resizeFrame fun _ => 0

/-- Ends a frame and drops the arguments of the call. -/
def popState : Exec μ Unit := do
  let base ← get .fp
  set .sp base
  let size ← pop
  resizeFrame fun _ => size
  set .ip (← pop)
  popRegisters Register.general.reverse
  let arguments ← pop
  drop arguments.toNat
  set .fp (base + size)
  let sp ← get .sp
  resizeFrame fun _ => base + size - sp

/-- Jumps to the handler of an interrupt if `im` enables it. A handler that is interrupted is not
resumed, so that only the first interrupt begins a frame. -/
def interrupt (vector : Word) : Exec μ Unit := do
  let index := vector &&& 0xF
  if (← get .im) &&& (1 <<< index) = 0 then return
  let handler ← readWord ((← cpu).vectorTable + 2 * index)
  if !(← cpu).inHandler then
    push 0
    pushState
  modifyCpu fun c => { c with inHandler := true }
  set .ip handler
  emit (.interrupt index)

end Machine16.Exec
