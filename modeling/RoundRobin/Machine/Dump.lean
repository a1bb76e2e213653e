import RoundRobin.Machine
import RoundRobin.Text.Column

/-!
# Showing the state

The memory and the queues laid out as tables for the console.
-/

namespace RoundRobin.Machine

open Operation

/-- The row of a slot that has a name. -/
def slotRow (address : Nat) (s : Slot) : String :=
  "| " ++ Text.column 3 (Integer.text address) ++ " | " ++ Text.column 11 s.name ++ " | "
    ++ Text.column 20 s.value ++ " |\n"

/-- All slots with a name. -/
def memoryText (m : Machine) : String :=
  let rows := (m.memory.listing.filter fun (_, s) => !s.name.isEmpty).map fun (a, s) => slotRow a s
  "\n---------- Memory State at Time: " ++ Integer.text m.now ++ " ----------\n" ++ String.join rows
    ++ String.ofList (List.replicate 46 '-') ++ "\n"

/-- The row of a queue. -/
def queueRow (title : String) (q : Queue) : String :=
  Text.column 28 title ++ ": " ++ (if q.isEmpty then "-" else q.shown) ++ "\n"

/-- All queues. -/
def queuesText (m : Machine) : String :=
  let rows := m.scheduler.queues.map fun (title, q) => queueRow title q
  "\n---------- Queue States at Time: " ++ Integer.text m.now ++ " ----------\n" ++ String.join rows

/-- Shows the memory. -/
def printMemory : Operation Unit := do say (.dump (← get).memoryText)

/-- Shows the queues. -/
def printQueues : Operation Unit := do say (.dump (← get).queuesText)

end RoundRobin.Machine
