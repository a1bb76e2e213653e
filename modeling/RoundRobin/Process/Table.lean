import RoundRobin.Process.ControlBlock

/-!
# The table of processes

All processes that were ever created, the process kept under the key `n` at place `n - 1`. Processes
are added at the end and never removed, so the keys in use are `1` up to the size of the table.
Amending one process leaves all others as they are (`process?_amend`).

A process goes by a number of its own, which is its key unless it was changed by hand. Whoever
refers to a process by that number, such as a queue, finds the process that is kept under it, or
none.
-/

namespace RoundRobin

/-- The processes in the order of their creation. -/
abbrev ProcessTable := List ControlBlock

namespace ProcessTable

def process? (t : ProcessTable) (key : Int) : Option ControlBlock :=
  if 0 < key then (t[(key - 1).toNat]? : Option ControlBlock) else none

/-- The number that the process under a key goes by. -/
def pidOf (t : ProcessTable) (key : Int) : Int :=
  match t.process? key with
  | some p => p.pid
  | none => key

/-- The table with one process changed; a key not in use changes nothing. -/
def amend (t : ProcessTable) (key : Int) (f : ControlBlock → ControlBlock) : ProcessTable :=
  if 0 < key then List.modify t (key - 1).toNat f else t

def add (t : ProcessTable) (p : ControlBlock) : ProcessTable := t ++ [p]

/-- The key of the process that is created next. -/
def nextKey (t : ProcessTable) : Int := t.length + 1

theorem process?_amend (t : ProcessTable) (key other : Int) (f : ControlBlock → ControlBlock) :
    (t.amend key f).process? other
      = if other = key then (t.process? other).map f else t.process? other := by
  unfold amend process?
  by_cases same : other = key
  · subst same
    by_cases positive : 0 < other <;> simp [positive]
  · by_cases positive : 0 < key
    · by_cases positive' : 0 < other
      · simp [positive, positive', same, show ¬key.toNat - 1 = other.toNat - 1 by omega]
      · simp [positive', same]
    · simp [positive, same]

theorem length_amend (t : ProcessTable) (key : Int) (f : ControlBlock → ControlBlock) :
    (t.amend key f).length = t.length := by
  unfold amend
  split <;> simp

/-- A change that leaves a process the number that it goes by changes no such number. -/
theorem pidOf_amend (t : ProcessTable) (key other : Int) {f : ControlBlock → ControlBlock}
    (keeps : ∀ p, (f p).pid = p.pid) : (t.amend key f).pidOf other = t.pidOf other := by
  rw [pidOf, process?_amend, pidOf]
  by_cases same : other = key
  · cases t.process? other <;> simp [same, keeps]
  · simp [same]

end ProcessTable

end RoundRobin
