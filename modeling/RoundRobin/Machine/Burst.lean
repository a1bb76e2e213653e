import RoundRobin.Machine.Execute

/-!
# Turns on the processor

A process is dispatched from the ready queue and executes instructions until its quantum is used
up, it is blocked, or no instruction is left. Every instruction takes one tick. Then the process
leaves the processor: blocked, terminated, or back to the ready queue. If an instruction ends in a
fault, the process stays on the processor, at that instruction, with all earlier ones executed. If
the pause after an instruction is refused, the process stays there as well: the instruction has been
executed and counted, and will be executed once more.

The processor is given to a process by the number that it goes by, and the turn is that of the
process kept under this number.
-/

namespace RoundRobin.Machine

open Operation

/-- Gives the processor to the process at the front of the ready queue, if there is one, and gives
the number that it goes by. -/
def dispatch : Operation (Option Int) := do
  match ← schedule fun s => s.selectNext with
  | none => return none
  | some key =>
    let now := (← get).now
    amend key fun p => { p with startTime := some (p.startTime.getD now) }
    let pid ← pidOf key
    modify fun m => { m with current := some pid }
    measure fun x => { x with contextSwitches := x.contextSwitches + 1 }
    say (.dispatched pid now)
    return some pid

/-- Counts an executed instruction, and pauses. -/
def countInstruction (key : Int) : Operation Unit := do
  let _ ← tick
  amend key fun p => { p with executed := p.executed + 1 }
  measure Metrics.countActive
  pause

/-- Executes an instruction of a process and counts it; then the process goes on to the next one,
unless it was blocked. Tells whether it goes on. -/
def perform (key : Int) (i : Instruction) : Operation Bool := do
  let running ← execute key i
  countInstruction key
  if running then amend key ControlBlock.advance
  return running

/-- Executes at most the given number of instructions of a process. -/
def runInstructions (key : Int) : Nat → Operation Unit
  | 0 => pure ()
  | n + 1 => do
    let p ← process key
    let m ← get
    match m.memory.instructionSlot? p.pc with
    | none => pure ()
    | some (slot, i) =>
      if m.verbose then say (.executing m.now p.pid p.pc slot.value)
      if ← perform key i then runInstructions key n

/-- A process ends. -/
def terminate (key : Int) : Operation Unit := do
  let now := (← get).now
  amend key fun p => { p with endTime := some now }
  reschedule fun s => s.terminate key
  let p ← process key
  match (← get).metrics.logProcess p with
  | .error fault => throw fault
  | .ok metrics => modify fun m => { m with metrics }
  say (.terminated p.pid now)

/-- A process leaves the processor after its turn. -/
def leave (key : Int) : Operation Unit := do
  modify fun m => { m with current := none }
  let p ← process key
  if p.state = .blocked then return
  if (← get).memory.isInstruction p.pc then reschedule fun s => s.preempt key else terminate key

/-- One turn of the process on the processor; gives the number that it goes by. -/
def burst : Operation Int := do
  match (← get).current with
  | none => throw .idleProcessor
  | some key =>
    let p ← process key
    let start := (← get).now
    runInstructions key p.quantum.toNat
    let stop := (← get).now
    measure fun x => x.logSlice ⟨p.pid, start, stop⟩
    leave key
    return p.pid

end RoundRobin.Machine
