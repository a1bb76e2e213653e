import RoundRobin.Fault

/-!
# Queues of processes

A queue holds the numbers of processes in the order in which they came. Numbers leave at the front,
or from anywhere by removal, which takes the first occurrence and keeps the order of the rest.
-/

namespace RoundRobin

/-- The waiting processes, the first to leave first. -/
abbrev Queue := List Int

namespace Queue

def enqueue (q : Queue) (pid : Int) : Queue := q ++ [pid]

/-- The process at the front and the queue behind it. -/
def dequeue? : Queue → Option (Int × Queue)
  | [] => none
  | pid :: rest => some (pid, rest)

def front? (q : Queue) : Option Int := q.head?

/-- The queue without the first occurrence of a process, and whether there was one. -/
def remove (q : Queue) (pid : Int) : Bool × Queue := (q.contains pid, q.erase pid)

/-- Removes every process that the queue held at first, each once per occurrence. -/
def drain (q : Queue) : List (Int × Bool) × Queue :=
  q.foldl (fun (seen, rest) pid =>
    let (found, rest) := rest.remove pid
    (seen ++ [(pid, found)], rest)) ([], q)

/-- The processes separated by commas. -/
def shown (q : Queue) : String := String.intercalate ", " (q.map Integer.text)

/-- The text of a named queue in messages. -/
def describe (name : String) (q : Queue) : String :=
  "ProcessQueue(" ++ name ++ ", [" ++ q.shown ++ "])"

theorem remove_of_not_mem {q : Queue} {pid : Int} (h : pid ∉ q) : q.remove pid = (false, q) := by
  simp [remove, h, List.erase_of_not_mem]

theorem remove_of_mem {q : Queue} {pid : Int} (h : pid ∈ q) :
    q.remove pid = (true, q.erase pid) := by
  simp [remove, h]

end Queue

end RoundRobin
