import RoundRobin.Proofs.Station

/-!
# Transfers between stations

A transfer takes one process from the queue of its station to the tail of the queue of another, and
changes nothing else that the scheduler shows: no other process, no other queue, no permits. The
moves of the scheduler are transfers, of which there are six: a process is promoted, selected,
preempted, blocked, woken or terminated. Transfers keep the scheduler orderly.
-/

namespace RoundRobin

/-- `s'` is `s` with the process under a key taken from station `a` to the tail of station `b`. -/
structure Transfer (key : Int) (a b : Station) (s s' : Scheduler) : Prop where
  process? : ∀ k, s'.process? k
    = if k = key then (s.process? k).map (ControlBlock.enter b) else s.process? k
  queue : ∀ st, s'.queue st
    = if st = b then s.queue b ++ [key] else if st = a then (s.queue a).erase key else s.queue st
  permits : ∀ r, s'.permits r = s.permits r
  length : s'.processes.length = s.processes.length

namespace Transfer

variable {key : Int} {a b : Station} {s s' : Scheduler} {p : ControlBlock}

theorem process?_self (t : Transfer key a b s s') (hp : s.process? key = some p) :
    s'.process? key = some (p.enter b) := by
  rw [t.process?, if_pos rfl, hp]
  rfl

theorem process?_of_ne (t : Transfer key a b s s') {k : Int} (ne : k ≠ key) :
    s'.process? k = s.process? k := by
  rw [t.process?, if_neg ne]

theorem queue_of_ne (t : Transfer key a b s s') {st : Station} (ha : st ≠ a) (hb : st ≠ b) :
    s'.queue st = s.queue st := by
  rw [t.queue, if_neg hb, if_neg ha]

/-- A process that was moved is otherwise what it was. -/
theorem process?_cases (t : Transfer key a b s s') {k : Int} {q : ControlBlock}
    (hq : s'.process? k = some q) :
    ∃ p, s.process? k = some p ∧ (k = key ∧ q = p.enter b ∨ k ≠ key ∧ q = p) :=
  Scheduler.process?_cases_of_eq (t.process? k) hq

/-- A transfer does not show in what is read off the processes if that is not where they stand. -/
theorem map_processes {γ : Type} {g : ControlBlock → γ} (t : Transfer key a b s s')
    (same : ∀ p, g (ControlBlock.enter b p) = g p) : s'.processes.map g = s.processes.map g := by
  refine Scheduler.map_processes_eq t.length fun k q hq => ?_
  obtain ⟨p, hp, ⟨-, rfl⟩ | ⟨-, rfl⟩⟩ := t.process?_cases hq
  · exact ⟨p, hp, same p⟩
  · exact ⟨q, hp, rfl⟩

/-- The other processes stay in their queues. -/
theorem mem_queue_of_ne (t : Transfer key a b s s') {k : Int} (ne : k ≠ key) (st : Station) :
    k ∈ s'.queue st ↔ k ∈ s.queue st := by
  rw [t.queue]
  by_cases hb : st = b
  · rw [if_pos hb, List.mem_append, List.mem_singleton, hb]
    exact or_iff_left ne
  · rw [if_neg hb]
    by_cases ha : st = a
    · rw [if_pos ha, List.mem_erase_of_ne ne, ha]
    · rw [if_neg ha]

/-- A process that was moved is what it was apart from its station. -/
theorem body?_eq (t : Transfer key a b s s') (k : Int) : s'.body? k = s.body? k := by
  rw [Scheduler.body?, t.process?, Scheduler.body?]
  split
  · cases s.process? k <;> rfl
  · rfl

end Transfer

namespace Scheduler

variable {s s' : Scheduler} {key : Int} {p : ControlBlock} {a b : Station}

theorem Orderly.transfer (h : s.Orderly) (hp : s.process? key = some p)
    (stands : p.station? = some a) (ne : a ≠ b) (t : Transfer key a b s s') : s'.Orderly := by
  have stationOf_eq : ∀ k, s'.stationOf k = if k = key then some b else s.stationOf k := by
    intro k
    simp only [stationOf, t.process?]
    by_cases hk : k = key
    · subst hk
      simp [hp]
    · simp [hk]
  refine ⟨?_, ?_, ?_⟩
  · intro k q hq
    obtain ⟨p', hp', ⟨-, rfl⟩ | ⟨-, rfl⟩⟩ := t.process?_cases hq
    · exact h.pid k p' hp'
    · exact h.pid k q hp'
  · intro k q hq
    obtain ⟨p', hp', ⟨-, rfl⟩ | ⟨-, rfl⟩⟩ := t.process?_cases hq
    · exact ⟨b, ControlBlock.station?_enter b p'⟩
    · exact h.station k q hp'
  · intro k st
    have hs : s.stationOf key = some a := by simp [stationOf, hp, stands]
    have old := h.count k
    rw [t.queue, stationOf_eq]
    by_cases hk : k = key
    · subst hk
      -- the process was in the queue of `a` once and in no other
      rw [hs] at old
      by_cases hb : st = b
      · subst hb
        simp [List.count_append, old, ne]
      · by_cases ha : st = a
        · subst ha
          simp [hb, List.count_erase_self, old, Ne.symm hb]
        · simp [hb, ha, old, Ne.symm ha, Ne.symm hb]
    · by_cases hb : st = b
      · subst hb
        simp [List.count_append, old, hk, Ne.symm hk]
      · by_cases ha : st = a
        · subst ha
          simp [hb, hk, List.count_erase_of_ne, old]
        · simp [hb, ha, hk, old]

/-! ### The moves -/

/-- A move that sets the state of a process to that of a station lets it enter the station, if
nothing is waited for there nor where it comes from. -/
theorem map_enter (k : Int) (b : Station) (hp : s.process? key = some p)
    (stands : p.station? = some a) (free : a.waiting = .nothing) (free' : b.waiting = .nothing) :
    (if k = key then (s.process? k).map fun p => { p with state := b.state } else s.process? k)
      = if k = key then (s.process? k).map (ControlBlock.enter b) else s.process? k := by
  split
  · rename_i same
    rw [same, hp]
    exact congrArg some (ControlBlock.enter_eq stands free free')
  · rfl

theorem transfer_promoteOne (hp : s.process? key = some p) (stands : p.station? = some .pending) :
    Transfer key .pending .ready s (s.promoteOne key) := by
  refine ⟨fun k => ?_, fun st => ?_, fun r => rfl, length_amend _ _ _⟩
  · exact (process?_amend _ _ _ _).trans (map_enter k .ready hp stands rfl rfl)
  · cases st <;> rfl

theorem transfer_selectNext {rest : Queue} (front : s.ready = key :: rest)
    (hp : s.process? key = some p) (stands : p.station? = some .ready) :
    ∃ s', s.selectNext = (.ok (some key), s') ∧ Transfer key .ready .running s s' := by
  have known : s.processes.process? key = some p := hp
  refine ⟨_, by simp only [selectNext, front, Queue.dequeue?, known]; rfl, ?_⟩
  refine ⟨fun k => ?_, fun st => ?_, fun r => rfl, length_amend _ _ _⟩
  · exact (process?_amend _ _ _ _).trans (map_enter k .running hp stands rfl rfl)
  · have removed : s.ready.erase key = rest := by rw [front, List.erase_cons_head]
    cases st with
    | ready => exact removed.symm
    | _ => rfl

theorem Orderly.transfer_preempt (h : s.Orderly) (hp : s.process? key = some p)
    (stands : p.station? = some .running) :
    Transfer key .running .ready s (s.preempt key) := by
  have pid : s.pidOf key = key := h.pidOf hp
  have pid' : ((s.leaveProcessor key).amend key fun p => { p with state := .ready }).pidOf key
      = key := (ProcessTable.pidOf_amend _ _ _ (by simp)).trans pid
  refine ⟨fun k => ?_, fun st => ?_, fun r => rfl, length_amend _ _ _⟩
  · exact (process?_amend _ _ _ _).trans (map_enter k .ready hp stands rfl rfl)
  · cases st with
    | running => exact congrArg s.running.erase pid
    | ready => exact congrArg (fun k => s.ready ++ [k]) pid'
    | _ => rfl

theorem Orderly.transfer_terminate (h : s.Orderly) (hp : s.process? key = some p)
    (stands : p.station? = some .running) :
    Transfer key .running .terminated s (s.terminate key) := by
  have pid : s.pidOf key = key := h.pidOf hp
  have pid' : ((s.leaveProcessor key).amend key fun p => { p with state := .terminated }).pidOf key
      = key := (ProcessTable.pidOf_amend _ _ _ (by simp)).trans pid
  refine ⟨fun k => ?_, fun st => ?_, fun r => rfl, length_amend _ _ _⟩
  · exact (process?_amend _ _ _ _).trans (map_enter k .terminated hp stands rfl rfl)
  · cases st with
    | running => exact congrArg s.running.erase pid
    | terminated => exact congrArg (fun k => s.terminated ++ [k]) pid'
    | _ => rfl

/-- A permit that is left is taken. -/
theorem semWait_of_pos {r : Resource} (left : 0 < s.permits r) (key : Int) :
    s.semWait r key = (true, s.withPermits r (s.permits r - 1)) := by
  have available : (s.semaphores.get r).isAvailable = true := decide_eq_true left
  simp only [semWait, available, if_true]
  rfl

/-- Without a permit the process is blocked. -/
theorem Orderly.transfer_semWait (h : s.Orderly) {r : Resource} (used_up : ¬ 0 < s.permits r)
    (hp : s.process? key = some p) :
    ∃ s', s.semWait r key = (false, s') ∧ Transfer key .running (.blocked r) s s' := by
  have unavailable : (s.semaphores.get r).isAvailable = false := decide_eq_false used_up
  have pid : (s.amend key fun p => { p with state := .blocked, blockedOn := .resource r }).pidOf key
      = key := (ProcessTable.pidOf_amend _ _ _ (by simp)).trans (h.pidOf hp)
  refine ⟨_, by simp only [semWait, unavailable, Bool.false_eq_true, if_false]; rfl, ?_⟩
  refine ⟨fun k => process?_amend _ _ _ _, fun st => ?_, fun other => ?_, length_amend _ _ _⟩
  · cases st with
    | running => exact congrArg s.running.erase pid
    | blocked other =>
      simp only [queue, blocked, Semaphores.get_set, Station.blocked.injEq, reduceCtorEq, if_false]
      by_cases same : other = r
      · simp only [same, if_true]
        exact congrArg (fun k => (s.semaphores.get r).blocked ++ [k]) pid
      · simp only [same, if_false]
        rfl
    | _ => rfl
  · simp only [permits, Semaphores.get_set]
    by_cases same : other = r
    · simp only [same, if_true]
    · simp only [same, if_false]
      rfl

/-- A signal for which nobody waits sets the permits to one. -/
theorem semSignal_of_nil {r : Resource} (nobody : s.queue (.blocked r) = []) :
    s.semSignal r = (.ok none, s.withPermits r 1) := by
  have empty : (s.semaphores.get r).blocked = [] := nobody
  simp only [semSignal, withPermits, empty, Queue.dequeue?]

/-- A signal wakes the process that waited longest. -/
theorem transfer_semSignal {r : Resource} {rest : Queue} (front : s.queue (.blocked r) = key :: rest)
    (hp : s.process? key = some p) :
    ∃ s', s.semSignal r = (.ok (some key), s') ∧
      Transfer key (.blocked r) .ready (s.withPermits r 1) s' := by
  have known : s.processes.process? key = some p := hp
  have waiting : (s.semaphores.get r).blocked = key :: rest := front
  have removed : (key :: rest).erase key = rest := List.erase_cons_head _ _
  refine ⟨_, by simp only [semSignal, waiting, Queue.dequeue?, known]; rfl, ?_⟩
  refine ⟨fun k => process?_amend _ _ _ _, fun st => ?_, fun other => ?_, length_amend _ _ _⟩
  · rw [queue_withPermits, queue_withPermits, queue_withPermits]
    cases st with
    | blocked other =>
      simp only [queue, blocked, amend, Semaphores.get_set, Station.blocked.injEq, reduceCtorEq,
        if_false]
      by_cases same : other = r
      · subst same
        simp only [if_true, waiting, removed]
      · simp only [same, if_false]
    | _ => rfl
  · simp only [permits, amend, withPermits, Semaphores.get_set]
    split <;> rfl

end Scheduler

end RoundRobin
