import RoundRobin.Machine.Burst
import RoundRobin.Machine.Dump

/-!
# Running the system

Programs are loaded as processes, steps are taken one by one or until nothing is left to do, and in
the end the results are handed over. A step promotes the processes whose time has come, gives the
processor to the next process if it is idle, and then runs a turn, or lets one tick pass if no
process can run.
-/

namespace RoundRobin.Machine

open Operation

/-- Loads a program and makes a process of it, to be released at a time that has to be a natural
number, and gives its key. A refused program changes nothing; a release time with too many digits is
noticed only when the program is loaded. -/
def createProcess (lines : List String) (release : Setting := .whole 0) : Operation Int := do
  match release.integer? with
  | none => throw (.badRelease release)
  | some time =>
    if time < 0 then throw (.badRelease release)
    let m ← get
    match m.memory.load? m.nextAddress lines with
    | .error fault => throw fault
    | .ok (memory, last) =>
      let pid := m.scheduler.processes.nextKey
      let p := ControlBlock.create pid m.quantum time m.nextAddress last
      set { m with memory, scheduler := (m.scheduler.add p).addPending pid, nextAddress := last + 1 }
      announce time (.loaded pid m.nextAddress last time)
      return pid

/-- Promotes the processes whose release time has come by now, and says so. -/
def promote : Operation Unit := do
  let now := (← get).now
  let promoted ← schedule fun s => s.promote now
  modify fun m => m.recordAll (promoted.map fun pid => .notice (.promoted pid now))

/-- Gives the processor to the next process, if it is idle and one is ready. -/
def occupy : Operation Unit := do
  let m ← get
  if m.isIdle && !m.scheduler.ready.isEmpty then
    let _ ← dispatch
    if m.verbose then
      printMemory
      printQueues

/-- Runs the turn of the process on the processor, or lets one tick pass if there is none. Tells
whether a turn was run. -/
def proceed : Operation Bool := do
  if (← get).isIdle then
    let _ ← tick
    measure Metrics.countIdle
    return false
  else
    let _ ← burst
    return true

/-- One step of the system. Tells whether a turn was run. -/
def step : Operation Bool := do
  promote
  occupy
  proceed

/-- The ticks until a process is released and twice the instructions that are left to it, since
each of them can wake a process that then has to wait once more. -/
def remainingWork (now : Int) (p : ControlBlock) : Nat :=
  (p.releaseTime - now).toNat + 2 * (p.upperBound - p.pc).toNat

/-- More steps than processes that run as they were created take: beyond their work, every place in
a queue can be left once to be blocked and once to be terminated. -/
def stepBound (m : Machine) : Nat :=
  (m.scheduler.processes.map (remainingWork m.now)).foldr (· + ·) 0
    + 2 * (m.scheduler.queues.flatMap Prod.snd).length + 3

/-- The steps beyond this bound that a run without a limit may take. Processes or slots that were
changed by hand can keep a run going until the input ends, or for ever, and nobody waits for so
many steps. -/
def patience : Nat := Nat.pow 10 18

/-- Takes steps until all processes are terminated, no process can ever run again, or a limit on the
number of steps is reached. The first argument bounds the steps still to be taken, and it is a fault
to need more; the second counts those taken. -/
def runSteps (limit : Option Int) : Nat → Nat → Operation Unit
  | left, taken => do
    let m ← get
    if m.allTerminated then return
    if m.isDeadlocked then
      say (.deadlocked m.now m.scheduler.waiters)
      return
    if limit.any (· ≤ (taken : Int)) then
      say (.stopped taken m.now)
      return
    match left with
    | 0 => throw .unending
    | left + 1 =>
      let _ ← step
      runSteps limit left (taken + 1)

/-- Runs the system, with a limit on the number of steps if one is given, and gives the time at the
end. -/
def run (limit : Option Int := none) : Operation Int := do
  let m ← get
  announce m.quantum (.started m.quantum)
  runSteps limit (limit.elim (m.stepBound + patience) Int.toNat) 0
  return (← get).now

/-- Prints the report. -/
def printReport : Operation Unit := do
  let m ← get
  let title ← ofExcept (written [m.quantum] ("Round Robin, quantum " ++ Integer.text m.quantum))
  let (events, outcome) := m.metrics.reportEvents title
  conclude events outcome

/-- Draws the chart, if a file is named for it. -/
def drawChart (chartFile : Option String) : Operation Unit := do
  match chartFile with
  | some file =>
    unless file.isEmpty do
      let m ← get
      let title ← ofExcept (written [m.quantum] ("Round Robin (q=" ++ Integer.text m.quantum ++ ")"))
      let events ← ofExcept (m.metrics.chartEvents file title)
      modify fun m => m.recordAll events
  | none => pure ()

/-- Writes the table of results, if a file is named for it. A table that cannot be written to its end
is left as far as it goes. -/
def exportResults (resultsFile : Option String) : Operation Unit := do
  match resultsFile with
  | some file =>
    unless file.isEmpty do
      let m ← get
      let (outcome, storage) := m.metrics.exportCsv m.storage file
      modify fun m => { m with storage }
      let events ← ofExcept outcome
      modify fun m => m.recordAll events
  | none => pure ()

/-- Hands over the results: the report, and the chart and the table of results if files are named
for them. -/
def shutdown (chartFile resultsFile : Option String := none) : Operation Unit := do
  printReport
  drawChart chartFile
  exportResults resultsFile

end RoundRobin.Machine
