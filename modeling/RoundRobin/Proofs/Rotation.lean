import RoundRobin.Proofs.Execution
import RoundRobin.Proofs.Release

/-!
# Rotation

Nobody overtakes in the ready queue. A step from an idle processor gives it to the process at the
front, and whoever is promoted, woken or preempted meanwhile comes behind all the others
(`Sound.rotates`); a turn takes at most the quantum. So as steps go on, the processes that are ready
get the processor in the order in which they stand, each after at most one quantum for every process
ahead of it (`Reachable.dispatched_in_turn`).
-/

namespace RoundRobin

open Operation

theorem Dispatch.ready {key other : Int} {p : ControlBlock} {m m' : Machine} {rest : Queue}
    (d : Dispatch key p m m') (front : m.scheduler.queue .ready = other :: rest) :
    key = other ∧ m'.scheduler.queue .ready = rest := by
  obtain @⟨rest', s, idle, front', known, moved⟩ := d
  rw [front] at front'
  cases front'
  refine ⟨rfl, (s.queue_amend _ _ _).trans ?_⟩
  rw [moved.queue, if_neg (by decide), if_pos rfl, front, List.erase_cons_head]

/-- An idle processor is taken by the front of the ready queue. -/
theorem Occupied.ready {key first : Int} {m m' : Machine} {rest : Queue} (o : Occupied key m m')
    (idle : m.current = none) (front : m.scheduler.queue .ready = first :: rest) :
    key = first ∧ m'.scheduler.queue .ready = rest := by
  cases o with
  | busy current =>
    rw [idle] at current
    cases current
  | dispatched dispatch same =>
    rw [Machine.scheduler_of_inside same]
    exact dispatch.ready front

/-- Who leaves the processor comes behind all that are ready. -/
theorem Departure.ready_prefix {key start : Int} {m m' : Machine} (d : Departure key start m m') :
    m.scheduler.queue .ready <+: m'.scheduler.queue .ready := by
  cases d with
  | yield => exact List.prefix_rfl
  | preempt facing moved =>
    have behind := (moved.queue .ready).trans (if_pos rfl)
    exact behind.symm ▸ List.prefix_append _ _
  | @terminate p s record current known runs at_end moved recorded =>
    have ended := m.scheduler.queue_amend key (ControlBlock.ended m.now) .ready
    have same : s.queue .ready = _ := moved.queue_of_ne (by decide) (by decide)
    exact (same.trans ended).symm ▸ List.prefix_rfl

namespace Sound

variable {ps : List Program} {m m' : Machine} {ran : Bool}

/-- A step from an idle processor that does not end in a fault takes at most the quantum. If somebody
is ready, it gives the processor to the front of the ready queue, and all others stay in front. -/
theorem rotates (h : Sound ps m) (idle : m.current = none) (took : Machine.step m = .ok ran m') :
    m'.now ≤ m.now + m.quantum ∧ m'.quantum = m.quantum ∧
      ∀ key rest, m.scheduler.queue .ready = key :: rest →
        m.Dispatches key ∧ rest <+: m'.scheduler.queue .ready := by
  have elapsed := h.elapsed (.of_idle idle)
  rw [after_of_ok took] at elapsed
  refine ⟨elapsed.soon, elapsed.quantum, fun first rest front => ?_⟩
  obtain ⟨key, m₁, m₂, promoted, promotion, run, occupied⟩ :=
    h.occupied_of_somebody (.inl (front ▸ List.cons_ne_nil first rest))
  have idle₁ : m₁.current = none := promotion.current.trans idle
  have runs := occupied.runs (.of_idle idle₁)
  have h₂ := (h.works promotion.works).works occupied.works
  have front₁ : m₁.scheduler.queue .ready = first :: (rest ++
      (m.scheduler.queue .pending).filter (m.scheduler.due m.now)) := by
    rw [promotion.ready, front, List.cons_append]
  obtain ⟨rfl, ready₂⟩ := occupied.ready idle₁ front₁
  refine ⟨promotion.dispatches promoted idle run occupied, ?_⟩
  rw [Machine.step_eq promoted run, Machine.proceed_of_busy runs.1, bind_apply] at took
  rcases h₂.burst_cases runs with
    ⟨m₃, m₄, m₅, -, burst, stretch, departure, same⟩ | ⟨fault, m₅, -, burst, -⟩
  · rw [burst] at took
    cases took
    obtain ⟨k, -, spell, -, -⟩ := stretch.spell h₂
    have kept := spell.ready.trans departure.ready_prefix
    rw [ready₂, ← Machine.scheduler_of_inside same] at kept
    exact (List.prefix_append rest _).trans kept
  · rw [burst] at took
    cases took

end Sound

/-- How a machine goes on by steps none of which ends in a fault, with the machines before each of
them. In between programs may be loaded or refused, and the files and the input may change. -/
inductive Onward (m : Machine) : List Machine → Machine → Prop where
  | refl : Onward m [] m
  | load {l : List Machine} {m' : Machine} (before : Onward m l m') (lines : List String)
    (release : Setting) : Onward m l (after (Machine.createProcess lines release) m')
  | outside {l : List Machine} {m' : Machine} (before : Onward m l m') (storage : Storage)
    (inputs : List String) : Onward m l (m'.fed storage inputs)
  | step {l : List Machine} {ran : Bool} {m' m'' : Machine} (before : Onward m l m')
    (took : Machine.step m' = .ok ran m'') : Onward m (l ++ [m']) m''

namespace Onward

variable {ps : List Program} {m m' : Machine} {l : List Machine}

theorem of_reachable (_ : Reachable ps m) : Onward m [] m := .refl

/-- A loaded program does not touch the ready queue. -/
theorem createProcess_ready (m : Machine) (lines : List String) (release : Setting) :
    (after (Machine.createProcess lines release) m).current = m.current ∧
      (after (Machine.createProcess lines release) m).quantum = m.quantum ∧
      (after (Machine.createProcess lines release) m).now = m.now ∧
      (after (Machine.createProcess lines release) m).scheduler.queue .ready
        = m.scheduler.queue .ready := by
  rcases m.after_createProcess_cases lines release with ⟨time, m₁, load, same⟩ | unchanged
  · rw [Machine.current_of_inside same, Machine.quantum_of_inside same,
      Machine.now_of_inside same, Machine.scheduler_of_inside same]
    obtain ⟨released, loaded, arrival⟩ := load
    exact ⟨rfl, rfl, rfl, (arrival.queue .ready).trans (if_neg (by decide))⟩
  · rw [unchanged]
    exact ⟨rfl, rfl, rfl, rfl⟩

/-- As long as some of those who were ready are left, they are in front of the ready queue, in their
order, after at most a quantum for each of the others. -/
structure InFront (m : Machine) (l : List Machine) (m' : Machine) : Prop where
  reachable : ∃ ps, Reachable ps m'
  idle : m'.current = none
  quantum : m'.quantum = m.quantum
  now : m'.now ≤ m.now + l.length * m.quantum
  left : (m.scheduler.queue .ready).drop l.length <+: m'.scheduler.queue .ready
  dispatched : ∀ (i : Nat) key before, (m.scheduler.queue .ready)[i]? = some key →
    l[i]? = some before → before.Dispatches key ∧ before.now ≤ m.now + i * m.quantum

theorem inFront (onward : Onward m l m') (h : Reachable ps m) (idle : m.current = none) :
    InFront m l m' := by
  induction onward with
  | refl =>
    exact ⟨⟨ps, h⟩, idle, rfl, by simp, List.prefix_rfl, fun i key before _ none => by simp at none⟩
  | load _ lines release ih =>
    obtain ⟨qs, reached⟩ := ih.reachable
    obtain ⟨current, quantum, now, ready⟩ := createProcess_ready _ lines release
    exact ⟨reached.createProcess lines release, current.trans ih.idle, quantum.trans ih.quantum,
      now.symm ▸ ih.now, ready.symm ▸ ih.left, ih.dispatched⟩
  | outside _ storage inputs ih =>
    obtain ⟨qs, reached⟩ := ih.reachable
    exact ⟨⟨qs, reached.outside storage inputs⟩, ih.idle, ih.quantum, ih.now, ih.left, ih.dispatched⟩
  | @step l ran m' m'' _ took ih =>
    obtain ⟨qs, reached⟩ := ih.reachable
    obtain ⟨sound, settled⟩ := reached.sound_of_idle ih.idle
    obtain ⟨now, quantum, front⟩ := sound.rotates ih.idle took
    rw [ih.quantum] at now quantum
    have later := ih.now
    refine ⟨⟨qs, after_of_ok took ▸ reached.step⟩, sound.idle_of_step settled took, quantum, ?_, ?_, ?_⟩
    · rw [List.length_append, List.length_singleton, Int.natCast_add, Int.add_mul]
      omega
    · rw [List.length_append, List.length_singleton, ← List.tail_drop]
      cases left : (m.scheduler.queue .ready).drop l.length with
      | nil => exact List.nil_prefix
      | cons key rest =>
        obtain ⟨behind, ready⟩ := ih.left
        rw [left, List.cons_append] at ready
        exact (List.prefix_append rest behind).trans (front key _ ready.symm).2
    · intro i key before at_i taken
      by_cases new : i = l.length
      · subst new
        rw [List.getElem?_concat_length] at taken
        cases taken
        obtain ⟨inside, rfl⟩ := List.getElem?_eq_some_iff.1 at_i
        obtain ⟨behind, ready⟩ := ih.left
        rw [List.drop_eq_getElem_cons inside, List.cons_append] at ready
        exact ⟨(front _ _ ready.symm).1, later⟩
      · have inside := (List.getElem?_eq_some_iff.1 taken).1
        rw [List.length_append, List.length_singleton] at inside
        rw [List.getElem?_append_left (by omega)] at taken
        exact ih.dispatched i key before at_i taken

theorem after_step (before : Onward m l m') (fine : isOk Machine.step m') :
    Onward m (l ++ [m']) (after Machine.step m') := by
  obtain ⟨ran, took⟩ := ok_after fine
  exact before.step took

end Onward

/-- While nobody has the processor, let some process be ready with `k` others ahead of it. As steps go
on none of which ends in a fault, whatever is loaded in between, the first of them give the processor
to those others, in their order, and the next one to the process itself, after at most `k` times the
quantum. -/
theorem Reachable.dispatched_in_turn {ps : List Program} {m m' : Machine} {l : List Machine} {k : Nat}
    {key : Int} (h : Reachable ps m) (idle : m.current = none)
    (waits : m.scheduler.ready[k]? = some key) (onward : Onward m l m') :
    (∀ (i : Nat) ahead before, i < k → m.scheduler.ready[i]? = some ahead → l[i]? = some before →
      before.Dispatches ahead) ∧
    ∀ before, l[k]? = some before → before.Dispatches key ∧ before.now ≤ m.now + k * m.quantum := by
  have order := (onward.inFront h idle).dispatched
  exact ⟨fun i ahead before _ at_i taken => (order i ahead before at_i taken).1,
    fun before taken => order k key before waits taken⟩

/-- The first of three processes had its turn and is behind the two others. A fourth that is loaded
does not come before it. -/
theorem Reachable.dispatched_in_turn_three : ∃ m before : Machine,
    Reachable [⟨["print x", "print y"], 0⟩, ⟨["print x", "print y"], 0⟩, ⟨["print x"], 0⟩] m ∧
    m.scheduler.ready = [2, 3, 1] ∧ before.scheduler.processes.length = 4 ∧
    before.Dispatches 1 ∧ before.now ≤ m.now + 2 * m.quantum := by
  have made := Reachable.fresh 1 30 (by decide) (by decide)
  have first := made.after_createProcess ["print x", "print y"] 0 (by decide) (by decide)
  have second := first.after_createProcess ["print x", "print y"] 0 (by decide) (by decide)
  have third := second.after_createProcess ["print x"] 0 (by decide) (by decide +kernel)
  have begun := third.step
  have second_turn := (Onward.of_reachable begun).after_step (by decide +kernel)
  have third_turn := (second_turn.load ["print z"] (.whole 0)).after_step (by decide +kernel)
  have onward := third_turn.after_step (by decide +kernel)
  have turn := begun.dispatched_in_turn (k := 2) (by decide +kernel)
    (show _ = some 1 by decide +kernel) onward
  exact ⟨_, _, begun, by decide +kernel, by decide +kernel, turn.2 _ rfl⟩

end RoundRobin
