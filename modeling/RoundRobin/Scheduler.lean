import RoundRobin.Process.Table
import RoundRobin.Semaphore

/-!
# The scheduler

The queues that hold the processes, by state, and the moves between them. A process is promoted
from pending to ready when its release time has come, selected from the front of the ready queue,
preempted to the tail of it, blocked on a resource, woken to the tail of the ready queue, and in
the end terminated. No move checks that it makes sense for the process. A move fails only on a
number in a queue under which no process is kept; what it did until then stays done, so it gives
the scheduler beside its result.

A move of one process is given the key of the process, and what it puts into a queue or takes from
one is the number that the process goes by.
-/

namespace RoundRobin

/-- The processes and the queues they stand in. -/
structure Scheduler where
  processes : ProcessTable := []
  pending : Queue := []
  ready : Queue := []
  running : Queue := []
  terminated : Queue := []
  semaphores : Semaphores := {}
  deriving DecidableEq, Repr, Inhabited

namespace Scheduler

/-- The process under a key that has to be in use. -/
def process (s : Scheduler) (key : Int) : Except Fault ControlBlock :=
  match s.processes.process? key with
  | some p => .ok p
  | none => .error (.unknownProcess key)

/-- The number that the process under a key goes by. -/
def pidOf (s : Scheduler) (key : Int) : Int := s.processes.pidOf key

/-- The scheduler with one process changed. -/
def amend (s : Scheduler) (key : Int) (f : ControlBlock → ControlBlock) : Scheduler :=
  { s with processes := s.processes.amend key f }

/-- A new process, which stands in no queue yet. -/
def add (s : Scheduler) (p : ControlBlock) : Scheduler := { s with processes := s.processes.add p }

/-- The queue of the processes that wait for a resource. -/
def blocked (s : Scheduler) (r : Resource) : Queue := (s.semaphores.get r).blocked

/-- A process waits for its release time. -/
def addPending (s : Scheduler) (key : Int) : Scheduler :=
  let s := s.amend key fun p => { p with state := .pending }
  { s with pending := s.pending.enqueue (s.pidOf key) }

/-- Moves one pending process to the ready queue. -/
def promoteOne (s : Scheduler) (key : Int) : Scheduler :=
  let s := { s with pending := (s.pending.remove key).2 }
  let s := s.amend key fun p => { p with state := .ready }
  { s with ready := s.ready.enqueue key }

/-- Moves those of the given pending processes to the ready queue whose release time has come, and
gives the numbers that they go by, in order. -/
def promoteEach (now : Int) (s : Scheduler) : List Int → Except Fault (List Int) × Scheduler
  | [] => (.ok [], s)
  | key :: rest =>
    match s.processes.process? key with
    | none => (.error (.unknownProcess key), s)
    | some p =>
      if p.releaseTime ≤ now then
        let (later, s) := promoteEach now (s.promoteOne key) rest
        (later.map (p.pid :: ·), s)
      else promoteEach now s rest

/-- Promotes every process that is pending now and whose release time has come. -/
def promote (s : Scheduler) (now : Int) : Except Fault (List Int) × Scheduler :=
  promoteEach now s s.pending

/-- Takes the process at the front of the ready queue to the processor, if there is one, and gives
its key. -/
def selectNext (s : Scheduler) : Except Fault (Option Int) × Scheduler :=
  match s.ready.dequeue? with
  | none => (.ok none, s)
  | some (key, rest) =>
    let s := { s with ready := rest }
    match s.processes.process? key with
    | none => (.error (.unknownProcess key), s)
    | some _ =>
      let s := s.amend key fun p => { p with state := .running }
      (.ok (some key), { s with running := s.running.enqueue key })

/-- Takes a process off the processor. -/
def leaveProcessor (s : Scheduler) (key : Int) : Scheduler :=
  { s with running := (s.running.remove (s.pidOf key)).2 }

/-- A process whose turn is over goes to the tail of the ready queue. -/
def preempt (s : Scheduler) (key : Int) : Scheduler :=
  let s := (s.leaveProcessor key).amend key fun p => { p with state := .ready }
  { s with ready := s.ready.enqueue (s.pidOf key) }

/-- A process ends. -/
def terminate (s : Scheduler) (key : Int) : Scheduler :=
  let s := (s.leaveProcessor key).amend key fun p => { p with state := .terminated }
  { s with terminated := s.terminated.enqueue (s.pidOf key) }

/-- A process acquires a resource, or is blocked on it if no permit is left. Tells whether it was
acquired. -/
def semWait (s : Scheduler) (r : Resource) (key : Int) : Bool × Scheduler :=
  let guard := s.semaphores.get r
  if guard.isAvailable then
    (true, { s with semaphores := s.semaphores.set r { guard with count := guard.count - 1 } })
  else
    let s := s.amend key fun p => { p with state := .blocked, blockedOn := .resource r }
    let s := s.leaveProcessor key
    let guard := { guard with blocked := guard.blocked.enqueue (s.pidOf key) }
    (false, { s with semaphores := s.semaphores.set r guard })

/-- A resource is released, and the process that waited longest for it is woken, if there is one.
Gives the key of that process. -/
def semSignal (s : Scheduler) (r : Resource) : Except Fault (Option Int) × Scheduler :=
  let guard := { s.semaphores.get r with count := 1 }
  match guard.blocked.dequeue? with
  | none => (.ok none, { s with semaphores := s.semaphores.set r guard })
  | some (key, rest) =>
    let s := { s with semaphores := s.semaphores.set r { guard with blocked := rest } }
    match s.processes.process? key with
    | none => (.error (.unknownProcess key), s)
    | some _ =>
      let s := s.amend key fun p => { p with state := .ready, blockedOn := .nothing }
      (.ok (some key), { s with ready := s.ready.enqueue key })

/-- How many processes are blocked. -/
def blockedCount (s : Scheduler) : Nat := (Resource.all.flatMap s.blocked).length

/-- The processes that are blocked, with what they wait for. -/
def waiters (s : Scheduler) : List (Int × Resource) :=
  Resource.all.flatMap fun r => (s.blocked r).map fun pid => (pid, r)

/-- All queues with their titles, in the order in which they are shown. -/
def queues (s : Scheduler) : List (String × Queue) :=
  [("Running Queue", s.running), ("Ready Queue", s.ready), ("Pending Queue", s.pending)]
    ++ Resource.all.map (fun r => ("Blocked Queue (" ++ r.name ++ ")", s.blocked r))
    ++ [("Terminated Queue", s.terminated)]

/-- The name by which the queue of a resource calls itself. -/
def blockedName (r : Resource) : String := "Blocked (" ++ r.name ++ ")"

/-- The names by which the queues call themselves, in the order in which they are shown. -/
def queueNames : List String :=
  ["Running", "Ready", "Pending"] ++ Resource.all.map blockedName ++ ["Terminated"]

end Scheduler

end RoundRobin
