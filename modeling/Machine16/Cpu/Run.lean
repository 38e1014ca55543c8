import Machine16.Cpu.Execute

/-! Running a machine. Pauses that a program asks for are left to whoever watches the clock: they
change nothing in the machine. -/
namespace Machine16.Exec

variable {μ α : Type} [Addressable μ]

/-- At most that many steps; whether the machine has halted. -/
def runFor : Nat → Exec μ Bool
  | 0 => return (← cpu).halted
  | n + 1 => do
    match ← step with
    | .halt => return true
    | .next | .sleep _ => runFor n

/-- Steps until the machine halts. The answer is false if `fuel` steps are not enough. -/
def run : (fuel : Nat) → Exec μ Bool
  | 0 => return false
  | n + 1 => do
    match ← step with
    | .halt => return true
    | .next | .sleep _ => run n

/-- Does something once the machine has halted. -/
def runThen (onHalt : Exec μ α) (fuel : Nat) : Exec μ (Option α) := do
  if ← run fuel then return some (← onHalt)
  return none

end Machine16.Exec
