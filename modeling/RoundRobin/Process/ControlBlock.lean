import RoundRobin.Memory

/-!
# Process control blocks

What the system keeps about a process: its number, where its program is in memory, how far it has
come, and the times of its life. A process is in one of five states and waits for a resource while
it is blocked. A state or a resource set by hand may be any other label, which no rule of
scheduling knows.
-/

namespace RoundRobin

/-- Where a process is in its life. -/
inductive ProcessState where
  | pending
  | ready
  | running
  | blocked
  | terminated
  | other (label : String)
  deriving DecidableEq, Repr, Inhabited

namespace ProcessState

def label : ProcessState → String
  | pending => "PENDING"
  | ready => "READY"
  | running => "RUNNING"
  | blocked => "BLOCKED"
  | terminated => "TERMINATED"
  | other text => text

/-- The state of a label. -/
def ofLabel (text : String) : ProcessState :=
  ([pending, ready, running, blocked, terminated].find? fun s => s.label == text).getD (other text)

end ProcessState

/-- What a process waits for. -/
inductive Waiting where
  | nothing
  | resource (r : Resource)
  | other (label : String)
  deriving DecidableEq, Repr, Inhabited

namespace Waiting

def label : Waiting → String
  | nothing => ""
  | resource r => r.name
  | other text => text

/-- What a label says is waited for. -/
def ofLabel (text : String) : Waiting :=
  if text.isEmpty then nothing
  else
    match Resource.ofName? text with
    | some r => resource r
    | none => other text

end Waiting

/-- A process as the system knows it. -/
structure ControlBlock where
  /-- The number that it goes by: counted from one in the order of creation, unless it was changed
  by hand. -/
  pid : Int
  /-- How many instructions it may execute in one turn. -/
  quantum : Int
  /-- The time from which on it may run. -/
  releaseTime : Int
  /-- The address of its first instruction. -/
  lowerBound : Int
  /-- The address of its last reserved slot. -/
  upperBound : Int
  /-- The address of its next instruction. -/
  pc : Int
  state : ProcessState := .pending
  startTime : Option Int := none
  endTime : Option Int := none
  /-- What it waits for while it is blocked. -/
  blockedOn : Waiting := .nothing
  /-- How many of its reserved slots hold variables. -/
  bound : Int := 0
  /-- How many instructions it has executed, attempts that blocked it among them. -/
  executed : Int := 0
  deriving DecidableEq, Repr, Inhabited

namespace ControlBlock

/-- A process that is yet to start. -/
def create (pid : Int) (quantum releaseTime lowerBound upperBound : Int) : ControlBlock :=
  { pid, quantum, releaseTime, lowerBound, upperBound, pc := lowerBound }

/-- The address of the first reserved slot. -/
def firstReserved (p : ControlBlock) : Int := p.upperBound - (Memory.reserved - 1)

/-- The address of the slot for its next variable. -/
def nextSlot (p : ControlBlock) : Int := p.firstReserved + p.bound

/-- The process at its next instruction; its last slot is not left. -/
def advance (p : ControlBlock) : ControlBlock :=
  if p.pc < p.upperBound then { p with pc := p.pc + 1 } else p

/-- The text of a process in messages. -/
def shown (p : ControlBlock) : String :=
  "PCB(pid=" ++ Integer.text p.pid ++ ", state=" ++ p.state.label ++ ", pc=" ++ Integer.text p.pc
    ++ ")"

end ControlBlock

end RoundRobin
