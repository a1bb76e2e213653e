import RoundRobin.Proofs.Requests

/-!
# What operations go by

Operations go by a part of the machine: the memory, the files, the input, the clock, and where the
processes are. The rest they only carry along (`Machine.bare`): the settings for display and for pauses,
the quantum, the measurements and the log. So it is with the moves of the scheduler, which do the same
whatever the quanta of the processes are (`Scheduler.bare`).
-/

namespace RoundRobin

open Operation

/-! ### What is only carried along -/

/-- Events that only show how the machine goes on: an announced instruction, the memory or the queues
laid out, a pause. -/
def Event.isDisplay : Event → Bool
  | .notice (.executing _ _ _ _) | .notice (.dump _) | .pause _ => true
  | _ => false

theorem Event.isDisplay_of_isHandover {e : Event} (h : e.isHandover) : e.isDisplay = false := by
  cases e with
  | notice n => cases n <;> first | rfl | cases h
  | chart => rfl
  | _ => cases h

/-- A process apart from its quantum. -/
def ControlBlock.bare (p : ControlBlock) : ControlBlock := { p with quantum := 0 }

/-- The scheduler apart from the quanta of the processes. -/
def Scheduler.bare (s : Scheduler) : Scheduler := { s with processes := s.processes.map .bare }

/-- The measurements apart from how time was cut into turns. -/
def Metrics.untimed (x : Metrics) : Metrics := { x with contextSwitches := 0, slices := [] }

/-- The machine apart from what operations only carry along. -/
def Machine.bare (m : Machine) : Machine :=
  { m with
    quantum := 0
    verbose := false
    delay := .zero
    sleep := .returning
    scheduler := m.scheduler.bare
    metrics := {}
    log := #[] }

/-- A change of the measurements that neither counts an instruction nor depends on turns. -/
structure Metrics.Steady (f : Metrics → Metrics) : Prop where
  active : ∀ x, (f x).activeTicks = x.activeTicks
  untimed : ∀ x, (f x).untimed = (f x.untimed).untimed

namespace Metrics.Steady

theorem logSlice (s : Slice) : Steady (Metrics.logSlice · s) where
  active x := by
    unfold Metrics.logSlice
    split <;> rfl
  untimed x := by
    unfold Metrics.logSlice
    split <;> rfl

theorem logRecord (r : Record) : Steady (Metrics.logRecord · r) := ⟨fun _ => rfl, fun _ => rfl⟩

theorem countIdle : Steady Metrics.countIdle := ⟨fun _ => rfl, fun _ => rfl⟩

theorem countSwitch : Steady fun x => { x with contextSwitches := x.contextSwitches + 1 } :=
  ⟨fun _ => rfl, fun _ => rfl⟩

end Metrics.Steady

/-! ### Moves of the scheduler go by no quantum -/

namespace Scheduler

variable (s : Scheduler) (key : Int)

theorem process?_bare : s.bare.process? key = (s.process? key).map .bare := by
  unfold process? ProcessTable.process? bare
  split
  · exact List.getElem?_map
  · rfl

theorem pidOf_bare : s.bare.pidOf key = s.pidOf key := by
  have known : s.bare.processes.process? key = _ := s.process?_bare key
  rw [pidOf, ProcessTable.pidOf, known, pidOf, ProcessTable.pidOf, process?]
  cases s.processes.process? key <;> rfl

/-- A change of a process that does not go by its quantum. -/
theorem bare_amend {f : ControlBlock → ControlBlock} (same : ∀ p, (f p).bare = f p.bare) :
    (s.amend key f).bare = s.bare.amend key f := by
  have modify : ∀ (l : List ControlBlock) (i : Nat),
      (l.modify i f).map ControlBlock.bare = (l.map ControlBlock.bare).modify i f := by
    intro l i
    apply List.ext_getElem?
    intro j
    rw [List.getElem?_map, List.getElem?_modify, List.getElem?_modify, List.getElem?_map]
    cases l[j]? with
    | none => rfl
    | some p =>
      by_cases here : i = j
      · simp [here, same]
      · simp [here]
  unfold amend ProcessTable.amend bare
  by_cases positive : 0 < key
  · rw [if_pos positive, if_pos positive, modify]
  · rw [if_neg positive, if_neg positive]

theorem bare_leaveProcessor : (s.leaveProcessor key).bare = s.bare.leaveProcessor key := by
  unfold leaveProcessor
  rw [pidOf_bare]
  rfl

theorem bare_preempt : (s.preempt key).bare = s.bare.preempt key := by
  have left := bare_amend (s.leaveProcessor key) key
    (f := fun p => { p with state := .ready }) fun _ => rfl
  unfold preempt
  dsimp only
  rw [← bare_leaveProcessor, ← left, pidOf_bare]
  rfl

theorem bare_terminate : (s.terminate key).bare = s.bare.terminate key := by
  have left := bare_amend (s.leaveProcessor key) key
    (f := fun p => { p with state := .terminated }) fun _ => rfl
  unfold terminate
  dsimp only
  rw [← bare_leaveProcessor, ← left, pidOf_bare]
  rfl

theorem bare_promoteOne : (s.promoteOne key).bare = s.bare.promoteOne key := by
  have entered := bare_amend { s with pending := (s.pending.remove key).2 } key
    (f := fun p => { p with state := .ready }) fun _ => rfl
  unfold promoteOne
  dsimp only
  rw [show ({ s.bare with pending := (s.bare.pending.remove key).2 } : Scheduler)
    = ({ s with pending := (s.pending.remove key).2 } : Scheduler).bare from rfl, ← entered]
  rfl

theorem bare_add (p : ControlBlock) : (s.add p).bare = s.bare.add p.bare := by
  have longer : (s.processes ++ [p]).map ControlBlock.bare = _ := List.map_append
  unfold add ProcessTable.add bare
  rw [longer]
  rfl

theorem bare_addPending : (s.addPending key).bare = s.bare.addPending key := by
  have entered := bare_amend s key (f := fun p => { p with state := .pending }) fun _ => rfl
  unfold addPending
  dsimp only
  rw [← entered, pidOf_bare]
  rfl

theorem promoteEach_bare (now : Int) (keys : List Int) : promoteEach now s.bare keys
    = ((promoteEach now s keys).1, (promoteEach now s keys).2.bare) := by
  induction keys generalizing s with
  | nil => rfl
  | cons key rest ih =>
    have known := s.process?_bare key
    unfold process? at known
    rw [promoteEach, promoteEach, known]
    cases s.processes.process? key with
    | none => rfl
    | some p =>
      dsimp only [Option.map_some]
      rw [show p.bare.releaseTime = p.releaseTime from rfl]
      by_cases due : p.releaseTime ≤ now
      · rw [if_pos due, if_pos due, ← bare_promoteOne, ih]
        rfl
      · rw [if_neg due, if_neg due, ih]

theorem selectNext_bare : s.bare.selectNext = (s.selectNext.1, s.selectNext.2.bare) := by
  unfold selectNext
  rw [show s.bare.ready = s.ready from rfl]
  cases s.ready.dequeue? with
  | none => rfl
  | some front =>
    obtain ⟨key, rest⟩ := front
    have known := s.process?_bare key
    unfold process? at known
    have entered := bare_amend { s with ready := rest } key
      (f := fun p => { p with state := .running }) fun _ => rfl
    dsimp only
    rw [known]
    cases s.processes.process? key with
    | none => rfl
    | some p =>
      dsimp only [Option.map_some]
      rw [show ({ s.bare with ready := rest } : Scheduler)
        = ({ s with ready := rest } : Scheduler).bare from rfl, ← entered]
      rfl

theorem semWait_bare (r : Resource) :
    s.bare.semWait r key = ((s.semWait r key).1, (s.semWait r key).2.bare) := by
  have blocked := bare_amend s key
    (f := fun p => { p with state := .blocked, blockedOn := .resource r }) fun _ => rfl
  unfold semWait
  dsimp only
  rw [show s.bare.semaphores = s.semaphores from rfl]
  by_cases left : (s.semaphores.get r).isAvailable
  · rw [if_pos left, if_pos left]
    rfl
  · rw [if_neg left, if_neg left, ← blocked, ← bare_leaveProcessor, pidOf_bare]
    rfl

theorem semSignal_bare (r : Resource) :
    s.bare.semSignal r = ((s.semSignal r).1, (s.semSignal r).2.bare) := by
  unfold semSignal
  dsimp only
  rw [show s.bare.semaphores = s.semaphores from rfl]
  cases (s.semaphores.get r).blocked.dequeue? with
  | none => rfl
  | some front =>
    obtain ⟨key, rest⟩ := front
    have known := s.process?_bare key
    unfold process? at known
    have entered := bare_amend
      { s with semaphores := s.semaphores.set r { count := 1, blocked := rest } } key
      (f := fun p => { p with state := .ready, blockedOn := .nothing }) fun _ => rfl
    dsimp only
    rw [show s.bare.processes.process? key = _ from known]
    cases s.processes.process? key with
    | none => rfl
    | some p =>
      dsimp only [Option.map_some]
      rw [show ({ s.bare with
          semaphores := s.semaphores.set r { count := 1, blocked := rest } } : Scheduler)
        = ({ s with semaphores := s.semaphores.set r { count := 1, blocked := rest } } :
          Scheduler).bare from rfl, ← entered]
      rfl

end Scheduler

namespace Machine

variable (m : Machine)

theorem allTerminated_bare : m.bare.allTerminated = m.allTerminated := by
  have length : m.bare.scheduler.processes.length = m.scheduler.processes.length :=
    List.length_map _
  rw [allTerminated, length]
  rfl

theorem stepBound_bare : m.bare.stepBound = m.stepBound := by
  have work : m.scheduler.bare.processes.map (remainingWork m.now)
      = m.scheduler.processes.map (remainingWork m.now) := List.map_map
  unfold stepBound
  exact congrArg (fun l : List Nat => l.foldr (· + ·) 0 + _ + 3) work

theorem nextKey_bare :
    m.bare.scheduler.processes.nextKey = m.scheduler.processes.nextKey :=
  congrArg (fun n : Nat => (n + 1 : Int)) (List.length_map _)

theorem record_eq (e : Event) : m.record e = m.recordAll [e] := by
  simp [record, recordAll]

end Machine

end RoundRobin
