import Mathlib.Algebra.Ring.Int.Defs
import RoundRobin.Proofs.Bare
import RoundRobin.Proofs.Spell

/-!
# The tally of instructions

Every tick in which an instruction was executed is counted for the process that executed it. So the active
ticks are as many as all processes together have executed, at any moment and also if requests end in
faults (`Reachable.tallied`).
-/

namespace RoundRobin

/-- The active ticks are the instructions that the processes have executed. -/
def Machine.Tallied (m : Machine) : Prop :=
  m.metrics.activeTicks = (m.scheduler.processes.map ControlBlock.executed).sum

namespace Machine.Tallied

variable {ps : List Program} {m m' : Machine} {key : Int} {p p' : ControlBlock} {n : Nat}

theorem create (empty : m.scheduler = {}) (metrics : m.metrics = {}) : m.Tallied := by
  rw [Tallied, metrics, empty]
  rfl

theorem of_same (T : m.Tallied) (h : Sound ps m) (h' : Sound ps m')
    (active : m'.metrics.activeTicks = m.metrics.activeTicks)
    (executed : ∀ k, (m'.scheduler.process? k).map ControlBlock.executed
      = (m.scheduler.process? k).map ControlBlock.executed) : m'.Tallied := by
  have counts : m'.scheduler.processes.map ControlBlock.executed
      = m.scheduler.processes.map ControlBlock.executed := by
    refine Scheduler.map_processes_eq (h'.layout.length.trans h.layout.length.symm) ?_
    intro k p' known'
    have same := executed k
    rw [known'] at same
    obtain ⟨p, known, eq⟩ := Option.map_eq_some_iff.1 same.symm
    exact ⟨p, known, eq.symm⟩
  rw [Tallied, active, counts]
  exact T

/-- What one process executes is counted. -/
theorem of_own (T : m.Tallied) (h : Sound ps m) (h' : Sound ps m')
    (active : m'.metrics.activeTicks = m.metrics.activeTicks + n)
    (known : m.scheduler.process? key = some p) (known' : m'.scheduler.process? key = some p')
    (executed : p'.executed = p.executed + n)
    (others : ∀ k, k ≠ key → m'.scheduler.body? k = m.scheduler.body? k) : m'.Tallied := by
  obtain ⟨l, l', before, after⟩ := Scheduler.map_processes_split (g := ControlBlock.executed)
    (h'.layout.length.trans h.layout.length.symm) known known' fun k ne =>
      Scheduler.map_process?_of_body? (fun _ => rfl) (others k ne)
  have counted : m.metrics.activeTicks = (m.scheduler.processes.map ControlBlock.executed).sum := T
  rw [before, List.sum_append, List.sum_cons] at counted
  rw [Tallied, active, after, executed, List.sum_append, List.sum_cons]
  omega

theorem spell (T : m.Tallied) (h : Sound ps m) (h' : Sound ps m')
    (known : m.scheduler.process? key = some p) (spell : Spell key n m m') : m'.Tallied := by
  obtain ⟨p', known', executed, -⟩ := spell.own p known
  exact T.of_own h h' (by rw [spell.metrics]; rfl) known known' executed spell.others

theorem move (T : m.Tallied) (h : Sound ps m) (move : Move m m') : m'.Tallied := by
  have h' := h.move move
  have bodies {s s' : Scheduler} (k : Int) (same : s'.body? k = s.body? k) :
      (s'.process? k).map ControlBlock.executed = (s.process? k).map ControlBlock.executed :=
    Scheduler.map_process?_of_body? (fun _ => rfl) same
  cases move with
  | idle => exact T.of_same h h' rfl fun _ => rfl
  | stall stall => exact T.spell h h' stall.facing.known (.of_stall h stall)
  | @linger key p r stuck => exact T.spell h h' stuck.known (.of_charge m key)
  | work work =>
    cases work with
    | outside same =>
      have scheduler := Machine.scheduler_of_inside same
      refine T.of_same h h' ?_ fun _ => by rw [scheduler]
      rw [Machine.metrics_of_inside same]
    | promote known stands due moved =>
      exact T.of_same h h' rfl fun k => bodies k (moved.body?_eq k)
    | @dispatch key p m' dispatch =>
      obtain @⟨rest, s, idle, front, known, moved⟩ := dispatch
      refine T.of_same h h' rfl fun k => ?_
      have started := s.map_process?_amend (g := ControlBlock.executed) key k
        (f := ControlBlock.started m.now) fun _ => rfl
      exact started.trans (bodies k (moved.body?_eq k))
    | complete completion =>
      exact T.spell h h' completion.facing.known (.of_completion h completion)
    | block blocking => exact T.spell h h' blocking.facing.known (.of_blocking blocking)
    | @depart key start m' departure =>
      have active : m'.metrics.activeTicks = m.metrics.activeTicks := by
        rw [departure.metrics]
        exact (Metrics.Steady.logSlice _).active m.metrics
      refine T.of_same h h' active fun k => ?_
      by_cases same : k = key
      · obtain ⟨p, p', known, known', executed, -⟩ := departure.leaves
        rw [same, known, known']
        exact congrArg some executed
      · exact bodies k (departure.body?_of_ne same)

theorem load (T : m.Tallied) {P : Program} (load : Load P m m') : m'.Tallied := by
  obtain @⟨memory, last, s, released, loaded, arrival⟩ := load
  have counted : m.metrics.activeTicks = (m.scheduler.processes.map ControlBlock.executed).sum := T
  show m.metrics.activeTicks = (s.processes.map ControlBlock.executed).sum
  rw [counted, arrival.processes, List.map_append, List.sum_append]
  exact (Int.add_zero _).symm

end Machine.Tallied

theorem Reachable.tallied {ps : List Program} {m : Machine} (h : Reachable ps m) : m.Tallied := by
  obtain ⟨s, kept, tallied⟩ := h.invariant_of_made (Q := fun _ m => m.Tallied)
    (fun m sound empty clock metrics => .create empty metrics)
    (fun ps P m m' sound tallied load => tallied.load load)
    fun ps m m' sound tallied move => tallied.move sound move
  rw [Machine.Tallied, kept.mirrors.metrics, kept.mirrors.processes]
  exact tallied

end RoundRobin
