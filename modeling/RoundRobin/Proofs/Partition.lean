import RoundRobin.Proofs.Reachable

/-!
# Every process in one queue

The seven queues share out the processes: in every machine that is reached, each process stands in
exactly one of them, once, and it is the queue that its state names; a process waits for a resource
exactly if it stands in the queue of that resource; the running queue holds the process that has
the processor and no other; and no queue holds a number that is no process's.
-/

namespace RoundRobin

open Operation

namespace Scheduler.Orderly

variable {s : Scheduler}

/-- A number stands once in all the queues together if it is that of a process, and else never. -/
theorem count_queues (h : s.Orderly) (key : Int) :
    (s.queues.flatMap Prod.snd).count key = if (s.process? key).isSome then 1 else 0 := by
  have counts : (s.queues.flatMap Prod.snd).count key
      = (Station.all.map fun st => if s.stationOf key = some st then 1 else 0).sum := by
    rw [List.flatMap_def, map_queues, List.count_flatten, List.map_map]
    exact congrArg List.sum (List.map_congr_left fun st _ => h.count key st)
  rw [counts]
  cases known : s.process? key with
  | none =>
    rw [stationOf, known]
    rfl
  | some p =>
    obtain ⟨st, stands⟩ := h.station key p known
    have station : s.stationOf key = some st := by
      rw [stationOf, known]
      exact stands
    rw [station]
    cases st with
    | blocked r => cases r <;> rfl
    | _ => rfl

theorem nodup_queues (h : s.Orderly) : (s.queues.flatMap Prod.snd).Nodup := by
  rw [List.nodup_iff_count_le_one]
  intro key
  rw [h.count_queues]
  split <;> decide

theorem mem_queues_iff (h : s.Orderly) (key : Int) :
    key ∈ s.queues.flatMap Prod.snd ↔ (s.process? key).isSome := by
  rw [← List.count_pos_iff, h.count_queues]
  split <;> simp_all

/-- The queues together are as long as there are processes. -/
theorem length_queues (h : s.Orderly) :
    (s.queue .running).length + (s.queue .ready).length + (s.queue .pending).length
      + s.blockedCount + (s.queue .terminated).length = s.processes.length := by
  have numbers : ((List.range s.processes.length).map fun i : Nat => (i : Int) + 1).Nodup :=
    List.nodup_range.map fun i j same => by omega
  have perm : (s.queues.flatMap Prod.snd).Perm
      ((List.range s.processes.length).map fun i : Nat => (i : Int) + 1) := by
    refine (List.perm_ext_iff_of_nodup h.nodup_queues numbers).2 fun key => ?_
    rw [h.mem_queues_iff, process?_isSome_iff, List.mem_map]
    constructor
    · intro known
      exact ⟨(key - 1).toNat, List.mem_range.2 (by omega), by omega⟩
    · rintro ⟨i, inside, rfl⟩
      have := List.mem_range.1 inside
      omega
  have length := perm.length_eq
  rw [List.length_map, List.length_range, List.length_flatMap] at length
  rw [← length, blockedCount, List.length_flatMap]
  simp only [queues, Resource.all, List.map_cons, List.map_nil, List.sum_cons, List.sum_nil,
    List.cons_append, List.nil_append, queue]
  omega

/-- A process stands in the queue of a resource exactly if it waits for it. -/
theorem mem_blocked_iff (h : s.Orderly) {key : Int} {p : ControlBlock}
    (known : s.process? key = some p) (r : Resource) :
    key ∈ s.queue (.blocked r) ↔ p.blockedOn = .resource r := by
  obtain ⟨st, stands⟩ := h.station key p known
  have waiting := ((ControlBlock.station?_eq_some_iff p st).1 stands).2
  rw [h.mem_queue_iff, stationOf, known, waiting]
  show p.station? = some (.blocked r) ↔ _
  rw [stands]
  cases st with
  | blocked other => simp [Station.waiting]
  | _ => simp [Station.waiting]

/-- A process that stands in no queue of a resource waits for nothing. -/
theorem blockedOn_of_not_mem (h : s.Orderly) {key : Int} {p : ControlBlock}
    (known : s.process? key = some p) (free : ∀ r, key ∉ s.queue (.blocked r)) :
    p.blockedOn = .nothing := by
  obtain ⟨st, stands⟩ := h.station key p known
  have waiting := ((ControlBlock.station?_eq_some_iff p st).1 stands).2
  cases st with
  | blocked r => exact absurd (h.mem_queue_of_station known stands) (free r)
  | _ => exact waiting

end Scheduler.Orderly

/-- The queues share out the processes. -/
structure Partitioned (m : Machine) : Prop where
  /-- Every process stands once in all the queues together. -/
  once : ∀ key p, m.scheduler.process? key = some p →
    p.pid = key ∧ (m.scheduler.queues.flatMap Prod.snd).count key = 1
  /-- It stands in the queue that its state names. -/
  state : ∀ key p st, m.scheduler.process? key = some p → key ∈ m.scheduler.queue st →
    p.state = st.state
  resource : ∀ key p r, m.scheduler.process? key = some p →
    (p.blockedOn = .resource r ↔ key ∈ m.scheduler.blocked r)
  free : ∀ key p, m.scheduler.process? key = some p → (∀ r, key ∉ m.scheduler.blocked r) →
    p.blockedOn = .nothing
  processor : m.scheduler.running = m.current.toList
  known : ∀ key, key ∈ m.scheduler.queues.flatMap Prod.snd → ∃ p, m.scheduler.process? key = some p

/-- Wherever requests lead, faults within a turn included, the queues share out the processes, unless the
pauses are refused. -/
theorem Reachable.partitioned {ps : List Program} {m : Machine} (h : Reachable ps m) (rests : m.Rests) :
    Partitioned m := by
  obtain ⟨sound, settled⟩ := h.sound rests
  have orderly := sound.orderly
  refine ⟨?_, ?_, ?_, ?_, ?_, ?_⟩
  · intro key p known
    refine ⟨orderly.pid key p known, ?_⟩
    rw [orderly.count_queues, known]
    rfl
  · intro key p st known stands
    exact orderly.state_of_mem stands known
  · intro key p r known
    exact (orderly.mem_blocked_iff known r).symm
  · intro key p known free
    exact orderly.blockedOn_of_not_mem known free
  · exact sound.queue_running settled
  · intro key stands
    exact Option.isSome_iff_exists.1 ((orderly.mem_queues_iff key).1 stands)

/-- A process that asked twice for one resource is blocked after its turn. -/
theorem Reachable.partitioned_blocked : ∃ m,
    Reachable [⟨["semWait file", "semWait file"], 0⟩] m ∧ m.Rests ∧ m.scheduler.blocked .file = [1] ∧
      Partitioned m := by
  have made := Reachable.fresh 3 10 (by decide) (by decide)
  have loaded := made.after_createProcess ["semWait file", "semWait file"] 0 (by decide) (by decide)
  exact ⟨_, loaded.step, by decide +kernel, by decide +kernel,
    loaded.step.partitioned (by decide +kernel)⟩

/-- If the pause after every instruction is refused, a process that was blocked stays on the processor. It
is blocked once more by the next step, and then stands twice in the queue of the resource. -/
theorem Reachable.partitioned_restless : ∃ m, Reachable [⟨["semWait file"], 0⟩] m ∧
    m.scheduler.blocked .file = [1, 1] ∧ ¬Partitioned m := by
  have made := Reachable.restless 5 10 (by decide) (by decide)
  have loaded := made.after_createProcess ["semWait file"] 0 (by decide) (by decide)
  refine ⟨_, loaded.step.step.step, by decide +kernel, fun partitioned => ?_⟩
  have once := (partitioned.once 1 _ (Option.some_get (by decide +kernel)).symm).2
  exact absurd once (by decide +kernel)

end RoundRobin
