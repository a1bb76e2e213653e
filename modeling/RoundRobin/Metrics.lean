import RoundRobin.Process.ControlBlock

/-!
# Metrics

What is measured while the system runs: how many ticks passed and how many of them executed an
instruction, how often the processor was given to a process, the record of every completed process,
and the slices of time in which processes had the processor.
-/

namespace RoundRobin

/-- The times of a completed process. -/
structure Record where
  pid : Int
  release : Int
  start : Int
  finish : Int
  burst : Int
  turnaround : Int
  waiting : Int
  response : Int
  deriving DecidableEq, Repr, Inhabited

namespace Record

/-- The record of a process released, started and finished at the given times. It waits while it
has neither executed nor finished, and never for a negative time. -/
def ofTimes (pid release start finish burst : Int) : Record :=
  let turnaround := finish - release
  { pid, release, start, finish, burst, turnaround
    waiting := max 0 (turnaround - burst)
    response := start - release }

/-- The record of a process that has started and ended. -/
def ofProcess? (p : ControlBlock) : Option Record :=
  match p.startTime, p.endTime with
  | some start, some finish => some (ofTimes p.pid p.releaseTime start finish p.executed)
  | _, _ => none

end Record

/-- An uninterrupted stay of a process on the processor. -/
structure Slice where
  pid : Int
  start : Int
  stop : Int
  deriving DecidableEq, Repr, Inhabited

/-- The measurements so far; records and slices stand in the order of their completion. -/
structure Metrics where
  activeTicks : Int := 0
  totalTicks : Int := 0
  contextSwitches : Int := 0
  completed : List Record := []
  slices : List Slice := []
  deriving DecidableEq, Repr, Inhabited

namespace Metrics

def logRecord (m : Metrics) (r : Record) : Metrics := { m with completed := m.completed ++ [r] }

/-- Records a process that has ended. -/
def logProcess (m : Metrics) (p : ControlBlock) : Except Fault Metrics :=
  match Record.ofProcess? p with
  | some r => .ok (m.logRecord r)
  | none => .error .neverStarted

/-- Records a slice, unless it is empty. -/
def logSlice (m : Metrics) (s : Slice) : Metrics :=
  if s.start < s.stop then { m with slices := m.slices ++ [s] } else m

/-- One tick in which an instruction was executed. -/
def countActive (m : Metrics) : Metrics :=
  { m with activeTicks := m.activeTicks + 1, totalTicks := m.totalTicks + 1 }

/-- One tick in which nothing was executed. -/
def countIdle (m : Metrics) : Metrics := { m with totalTicks := m.totalTicks + 1 }

/-- The records in the order of the process numbers; records of one number stay in the order of
completion. -/
def byPid (m : Metrics) : List Record := m.completed.mergeSort fun a b => decide (a.pid ≤ b.pid)

end Metrics

end RoundRobin
