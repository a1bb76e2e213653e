import RoundRobin.Clock
import RoundRobin.Metrics.Export
import RoundRobin.Scheduler
import RoundRobin.Sleep

/-!
# The machine

The whole system as one value: memory, scheduler, clock, metrics, the process on the processor, and
the outside as far as programs can reach it (files, the input still to come, and the events so
far). An `Operation` changes the machine and either gives a result or ends in a fault; the machine is
kept as it is at that point, so what was done before a fault stays done.
-/

namespace RoundRobin

/-- The state of the system. -/
structure Machine where
  /-- How many instructions a process may execute in one turn. -/
  quantum : Int
  /-- Whether every instruction and the state before every turn are shown. -/
  verbose : Bool := false
  /-- How long to pause after every instruction, in seconds. -/
  delay : Binary64 := .zero
  /-- The service that pauses. -/
  sleep : Sleep := .returning
  memory : Memory
  scheduler : Scheduler := {}
  clock : Clock := {}
  metrics : Metrics := {}
  /-- The number of the process on the processor; none if the processor is idle. -/
  current : Option Int := none
  /-- The address at which the next program is loaded. -/
  nextAddress : Int := 0
  storage : Storage := {}
  inputs : List String := []
  /-- What was done to the outside, in order. -/
  log : Array Event := #[]
  deriving Inhabited

/-- An operation of the machine. -/
abbrev Operation := EStateM Fault Machine

namespace Machine

def now (m : Machine) : Int := m.clock.now

def isIdle (m : Machine) : Bool := m.current.isNone

def terminatedCount (m : Machine) : Nat := m.scheduler.terminated.length

def allTerminated (m : Machine) : Bool := m.terminatedCount == m.scheduler.processes.length

/-- Whether no process can ever run again, although some wait. -/
def isDeadlocked (m : Machine) : Bool :=
  m.isIdle && m.scheduler.ready.isEmpty && m.scheduler.pending.isEmpty
    && 0 < m.scheduler.blockedCount

/-- A machine without processes. The quantum has to be a positive integer and the memory size
positive. -/
def create? (quantum : Setting) (memorySize : Int := Memory.defaultSize) (verbose : Bool := false)
    (delay : Binary64 := .zero) (storage : Storage := {}) (inputs : List String := [])
    (sleep : Sleep := .returning) : Except Fault Machine :=
  match quantum.integer? with
  | none => .error (.badQuantum quantum)
  | some q =>
    if q ≤ 0 then .error (.badQuantum quantum)
    else
      match Memory.ofSize? memorySize with
      | .error fault => .error fault
      | .ok memory => .ok { quantum := q, verbose, delay, sleep, memory, storage, inputs }

/-- The machine after an event. -/
def record (m : Machine) (e : Event) : Machine := { m with log := m.log.push e }

/-- The machine after some events. -/
def recordAll (m : Machine) (es : List Event) : Machine := { m with log := m.log ++ es }

end Machine

namespace Operation

/-- Does something to the outside. -/
def emit (e : Event) : Operation Unit := modify fun m => m.record e

/-- Writes a notice to the console. The numbers in it are counted up one by one by the system itself,
so they have few digits. -/
def say (n : Notice) : Operation Unit := emit (.notice n)

/-- Writes a notice that names a number given from outside, which may have too many digits. -/
def announce (given : Int) (n : Notice) : Operation Unit := do
  let _ ← ofExcept (written [given] n.text)
  say n

/-- Pauses as long as the machine is told to, if it is told to pause at all. -/
def pause : Operation Unit := do
  let m ← get
  unless m.delay.isZero do
    match m.sleep.refusal? m.delay with
    | some fault => throw fault
    | none => emit (.pause m.delay)

/-- Does some things to the outside, and then goes on or ends in a fault. -/
def conclude (events : List Event) (outcome : Except Fault Unit) : Operation Unit := fun m =>
  let m := m.recordAll events
  match outcome with
  | .ok () => .ok () m
  | .error fault => .error fault m

/-- A move of the scheduler. -/
def schedule {α : Type} (move : Scheduler → Except Fault α × Scheduler) : Operation α := fun m =>
  match move m.scheduler with
  | (.ok a, s) => .ok a { m with scheduler := s }
  | (.error fault, s) => .error fault { m with scheduler := s }

/-- A move of the scheduler that cannot fail. -/
def reschedule (move : Scheduler → Scheduler) : Operation Unit :=
  modify fun m => { m with scheduler := move m.scheduler }

/-- The process under a key. -/
def process (key : Int) : Operation ControlBlock := fun m =>
  match m.scheduler.process key with
  | .ok p => .ok p m
  | .error fault => .error fault m

/-- The number that the process under a key goes by. -/
def pidOf (key : Int) : Operation Int := fun m => .ok (m.scheduler.pidOf key) m

/-- Changes one process. -/
def amend (key : Int) (f : ControlBlock → ControlBlock) : Operation Unit :=
  reschedule fun s => s.amend key f

/-- Moves the clock and gives the new time. -/
def tick (ticks : Int := 1) : Operation Int := fun m =>
  let clock := m.clock.tick ticks
  .ok clock.now { m with clock }

/-- Changes what is measured. -/
def measure (f : Metrics → Metrics) : Operation Unit := modify fun m => { m with metrics := f m.metrics }

/-- Sets a slot of the memory. -/
def writeSlot (address : Int) (s : Slot) : Operation Unit := fun m =>
  match m.memory.write? address s with
  | .ok memory => .ok () { m with memory }
  | .error fault => .error fault m

/-- Asks for a line of input. The question is asked even if no answer is left. -/
def ask (message : String) : Operation String := fun m =>
  let m := m.record (.prompt message)
  match m.inputs with
  | answer :: rest => .ok answer { m with inputs := rest }
  | [] => .error .endOfInput m

end Operation

end RoundRobin
