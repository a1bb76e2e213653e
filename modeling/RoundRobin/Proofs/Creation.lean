import RoundRobin.Proofs.Numeral
import RoundRobin.Proofs.Reachable

/-!
# Making a process

A process is made as a whole or not at all. The request is refused for its release time first, then for
the room that its program needs, and a refused request leaves the machine as it was (`Creation`). Else
everything that is different afterwards is said by one equation: the program in the slots behind all
others, its process at the end of the row and of the pending queue, and the line that tells of it
(`Created`). If the release time has too many digits for that line, the process is made all the same, and
the request ends in a fault.
-/

namespace RoundRobin

open Operation

/-- The machine with a program behind all others, and with its process at the end of the row and of the
pending queue. -/
def Machine.joined (m : Machine) (memory : Memory) (count : Nat) (time : Int) : Machine :=
  { m with
    memory
    scheduler := { m.scheduler with
      processes := m.scheduler.processes ++ [.create m.scheduler.processes.nextKey m.quantum time
        m.nextAddress (m.nextAddress + count + 2)]
      pending := m.scheduler.pending ++ [m.scheduler.processes.nextKey] }
    nextAddress := m.nextAddress + count + 3 }

/-- What is told of a process that was made. -/
def Machine.arrivalOf (m : Machine) (count : Nat) (time : Int) : Event :=
  .notice (.loaded m.scheduler.processes.nextKey m.nextAddress (m.nextAddress + count + 2) time)

/-- A process was made for a program, with the given key. -/
structure Created (lines : List String) (time : Int) (m : Machine) (key : Int) (m' : Machine) : Prop where
  key_eq : key = m.scheduler.processes.length + 1
  /-- The process is the last in the row and in the pending queue. Its program takes the addresses from
  the next one on, and the next address is behind it. The line that tells of it is written unless its
  release time has too many digits. -/
  after_eq : m' = if Integer.isWritable time
    then (m.joined m'.memory lines.length time).record (m.arrivalOf lines.length time)
    else m.joined m'.memory lines.length time
  state : ∃ p, m'.scheduler.process? key = some p ∧ p.pid = key ∧ p.state = .pending ∧
    p.lowerBound = m.nextAddress ∧ p.upperBound = m.nextAddress + lines.length + 2
  size : m'.memory.size = m.memory.size
  slot : ∀ a, m'.memory.slot? a
    = if m.nextAddress ≤ a ∧ a ≤ m.nextAddress + lines.length + 2 then
        (Memory.programSlots lines)[(a - m.nextAddress).toNat]?
      else m.memory.slot? a

theorem Created.nextAddress {lines : List String} {time key : Int} {m m' : Machine}
    (c : Created lines time m key m') : m'.nextAddress = m.nextAddress + lines.length + 3 := by
  rw [c.after_eq]
  split <;> rfl

namespace Machine

variable {m m' : Machine} {lines : List String} {release : Setting}

end Machine

end RoundRobin
