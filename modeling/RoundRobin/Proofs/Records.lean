import RoundRobin.Proofs.Vain

/-!
# Records of completed processes

A process is released before it starts and starts early enough for all that it executes, since every
instruction takes a tick (`OnClock`). The records are those of the terminated queue, in its order
(`Recorded`). So a record tells the lines of its program and the waits that blocked it as its burst,
its turnaround splits into waiting and burst, and its response is part of its waiting
(`Reachable.recorded`).
-/

namespace RoundRobin

/-- A process that has the processor has started and is not among those that wait for it or are done. -/
theorem Sound.station_of_current {ps : List Program} {m : Machine} {key : Int} (h : Sound ps m)
    (current : m.current = some key) : ∃ p st, m.scheduler.process? key = some p ∧ p.startTime.isSome ∧
      p.station? = some st ∧ st ≠ .pending ∧ st ≠ .terminated := by
  obtain ⟨p, known, started, state⟩ := h.processor.current key current
  obtain ⟨st, stands⟩ := h.orderly.station key p known
  have same := ControlBlock.state_of_station? stands
  refine ⟨p, st, known, started, stands, ?_, ?_⟩
  · rintro rfl
    exact absurd (same ▸ state) (by decide)
  · rintro rfl
    exact absurd (same ▸ state) (by decide)

/-! ### The times of a process -/

/-- The times of a process agree with the clock, the counts and the queues. -/
structure OnClock (m : Machine) (key : Int) (p : ControlBlock) : Prop where
  released : key ∉ m.scheduler.queue .pending → p.releaseTime ≤ m.now
  unfinished : key ∉ m.scheduler.queue .terminated → p.endTime = none
  counted : 0 ≤ p.executed
  fresh : p.startTime = none → p.executed = 0
  /-- Since it started there was a tick for each instruction, until it ended. -/
  span : ∀ t, p.startTime = some t → p.releaseTime ≤ t ∧ t + p.executed ≤ p.endTime.getD m.now
  past : ∀ t, p.endTime = some t → t ≤ m.now

namespace OnClock

variable {m m' : Machine} {key : Int} {p p' : ControlBlock}

/-- Later, a process of which only the station changed is still on the clock. -/
theorem of_body (h : OnClock m key p) (body : p'.body = p.body) (now : m.now ≤ m'.now)
    (released : key ∉ m'.scheduler.queue .pending → p.releaseTime ≤ m'.now)
    (unfinished : key ∉ m'.scheduler.queue .terminated → p.endTime = none) : OnClock m' key p' := by
  have release := ControlBlock.releaseTime_of_body body
  have start := ControlBlock.startTime_of_body body
  have stop := ControlBlock.endTime_of_body body
  have executed := ControlBlock.executed_of_body body
  refine ⟨?_, ?_, ?_, ?_, fun t started => ?_, fun t ended => ?_⟩
  · rw [release]
    exact released
  · rw [stop]
    exact unfinished
  · rw [executed]
    exact h.counted
  · rw [start, executed]
    exact h.fresh
  · rw [start] at started
    obtain ⟨after, enough⟩ := h.span t started
    rw [release, executed, stop]
    refine ⟨after, ?_⟩
    cases stop_eq : p.endTime with
    | none =>
      rw [stop_eq] at enough
      exact Int.le_trans enough now
    | some last =>
      rw [stop_eq] at enough
      exact enough
  · rw [stop] at ended
    exact Int.le_trans (h.past t ended) now

end OnClock

/-- The times of all processes agree with the clock. -/
def Timely (m : Machine) : Prop :=
  ∀ key p, m.scheduler.process? key = some p → OnClock m key p

namespace Timely

variable {ps : List Program} {m m' : Machine} {key : Int} {p : ControlBlock} {i : Instruction}
  {r : Resource}

theorem of_body? (T : Timely m) (now : m.now ≤ m'.now)
    (body : m'.scheduler.body? key = m.scheduler.body? key)
    (pending : key ∈ m.scheduler.queue .pending → key ∈ m'.scheduler.queue .pending)
    (terminated : key ∈ m.scheduler.queue .terminated → key ∈ m'.scheduler.queue .terminated)
    {p' : ControlBlock} (known' : m'.scheduler.process? key = some p') : OnClock m' key p' := by
  obtain ⟨p, known, same⟩ := Scheduler.process?_of_body? body known'
  have h := T key p known
  refine h.of_body same now (fun absent => ?_) fun absent => ?_
  · exact Int.le_trans (h.released (mt pending absent)) now
  · exact h.unfinished (mt terminated absent)

/-- It is enough to look at one process if all others keep what they are and stay in the queues in
which nothing happens to them. -/
theorem of_others (T : Timely m) (key : Int) (now : m.now ≤ m'.now)
    (bodies : ∀ k, k ≠ key → m'.scheduler.body? k = m.scheduler.body? k)
    (pending : ∀ k, k ≠ key → k ∈ m.scheduler.queue .pending → k ∈ m'.scheduler.queue .pending)
    (terminated : ∀ k, k ≠ key → k ∈ m.scheduler.queue .terminated →
      k ∈ m'.scheduler.queue .terminated)
    (own : ∀ p', m'.scheduler.process? key = some p' → OnClock m' key p') : Timely m' := by
  intro k p' known'
  by_cases same : k = key
  · subst same
    exact own p' known'
  · exact T.of_body? now (bodies k same) (pending k same) (terminated k same) known'

/-- It is enough that all processes keep what they are and stay in those queues. -/
theorem of_bodies (T : Timely m) (now : m.now ≤ m'.now)
    (bodies : ∀ k, m'.scheduler.body? k = m.scheduler.body? k)
    (pending : ∀ k, k ∈ m.scheduler.queue .pending → k ∈ m'.scheduler.queue .pending)
    (terminated : ∀ k, k ∈ m.scheduler.queue .terminated → k ∈ m'.scheduler.queue .terminated) :
    Timely m' :=
  fun k _ known' => T.of_body? now (bodies k) (pending k) (terminated k) known'

theorem of_inside (T : Timely m) (same : m'.inside = m.inside) : Timely m' := by
  have scheduler := Machine.scheduler_of_inside same
  have now := Int.le_of_eq (Machine.now_of_inside same).symm
  exact T.of_bodies now (fun _ => by rw [scheduler]) (fun _ => by rw [scheduler]; exact id)
    fun _ => by rw [scheduler]; exact id

theorem promote (T : Timely m) (h : Sound ps m) {s : Scheduler}
    (known : m.scheduler.process? key = some p) (stands : p.station? = some .pending)
    (due : p.releaseTime ≤ m.now) (moved : Transfer key .pending .ready m.scheduler s) :
    Timely { m with scheduler := s } := by
  refine T.of_others key (Int.le_refl _) (fun k _ => moved.body?_eq k)
    (fun k ne => (moved.mem_queue_of_ne ne _).2) (fun k ne => (moved.mem_queue_of_ne ne _).2) ?_
  intro p' known'
  cases (moved.process?_self known).symm.trans known'
  have absent := h.orderly.not_mem_queue known stands (show Station.pending ≠ .terminated by decide)
  exact (T key p known).of_body rfl (Int.le_refl _) (fun _ => due)
    fun _ => (T key p known).unfinished absent

theorem dispatch (T : Timely m) (h : Sound ps m) (dispatch : Dispatch key p m m') : Timely m' := by
  obtain ⟨known, stands⟩ := dispatch.stands h
  have clock := T key p known
  have released := clock.released (h.orderly.not_mem_queue known stands (by decide))
  have unfinished := clock.unfinished (h.orderly.not_mem_queue known stands (by decide))
  have now := dispatch.now
  have pending := dispatch.queue .pending (by decide) (by decide)
  have terminated := dispatch.queue .terminated (by decide) (by decide)
  refine T.of_others key (Int.le_of_eq now.symm) (fun k ne => dispatch.body?_of_ne ne)
    (fun k _ => pending.symm ▸ id) (fun k _ => terminated.symm ▸ id) ?_
  intro p' known'
  cases dispatch.process?_self.symm.trans known'
  refine ⟨fun _ => now.symm ▸ released, fun _ => unfinished, clock.counted, nofun,
    fun t started => ?_, fun t ended => now.symm ▸ clock.past t ended⟩
  cases started
  rw [now]
  show p.releaseTime ≤ p.startTime.getD m.now ∧
    p.startTime.getD m.now + p.executed ≤ p.endTime.getD m.now
  cases before : p.startTime with
  | none =>
    rw [clock.fresh before, unfinished]
    exact ⟨released, Int.le_of_eq (Int.add_zero _)⟩
  | some t => exact clock.span t before

/-- A tick for each instruction. -/
theorem spell (T : Timely m) (h : Sound ps m) (current : m.current = some key) {n : Nat}
    (spell : Spell key n m m') : Timely m' := by
  have now := spell.now
  obtain ⟨p, st, known, started, stands, waits, ends⟩ := h.station_of_current current
  have clock := T key p known
  have released := clock.released (h.orderly.not_mem_queue known stands waits)
  have unfinished := clock.unfinished (h.orderly.not_mem_queue known stands ends)
  refine T.of_others key (by omega) spell.others (fun k _ => ?_) (fun k _ => ?_) ?_
  · exact spell.pending ▸ id
  · exact spell.terminated ▸ id
  · intro p' known'
    obtain ⟨q, hq, executed, release, start, stop⟩ := spell.own p known
    cases hq.symm.trans known'
    have counted := clock.counted
    refine ⟨fun _ => by omega, fun _ => stop.trans unfinished, by omega, ?_, fun t begun => ?_, ?_⟩
    · rw [start]
      intro never
      rw [never] at started
      cases started
    · rw [start] at begun
      obtain ⟨after, enough⟩ := clock.span t begun
      rw [unfinished] at enough
      rw [stop, unfinished, release, executed]
      exact ⟨after, by simp only [Option.getD_none] at enough ⊢; omega⟩
    · rw [stop, unfinished]
      exact nofun

theorem depart (T : Timely m) (h : Sound ps m) {start : Int}
    (departure : Departure key start m m') : Timely m' := by
  have bodies := fun k ne => departure.body?_of_ne (k := k) ne
  cases departure with
  | yield => exact T.of_bodies (Int.le_refl _) (fun _ => rfl) (fun _ => id) fun _ => id
  | @preempt p i s facing moved =>
    have pending : s.queue .pending = m.scheduler.queue .pending :=
      moved.queue_of_ne (by decide) (by decide)
    have terminated : s.queue .terminated = m.scheduler.queue .terminated :=
      moved.queue_of_ne (by decide) (by decide)
    exact T.of_bodies (Int.le_refl _) moved.body?_eq (fun _ => pending.symm ▸ id)
      fun _ => terminated.symm ▸ id
  | @terminate p s record current known runs at_end moved recorded =>
    have stands := h.orderly.station?_of_running known runs
    have clock := T key p known
    have released := clock.released (h.orderly.not_mem_queue known stands (by decide))
    have unfinished := clock.unfinished (h.orderly.not_mem_queue known stands (by decide))
    have queue := fun st => m.scheduler.queue_amend key (ControlBlock.ended m.now) st
    refine T.of_others key (Int.le_refl _) (fun k ne => ?_) (fun k ne waits => ?_)
      (fun k ne gone => ?_) ?_
    · exact bodies k ne
    · exact (moved.mem_queue_of_ne ne _).2 ((queue _).symm ▸ waits)
    · exact (moved.mem_queue_of_ne ne _).2 ((queue _).symm ▸ gone)
    · intro p' known'
      cases (moved.process?_self (Scheduler.process?_amend_self known _)).symm.trans known'
      refine ⟨fun _ => released, fun absent => ?_, clock.counted, clock.fresh, fun t begun => ?_,
        fun t ended => ?_⟩
      · have last : key ∈ s.queue .terminated := by
          rw [moved.queue, if_pos rfl]
          exact List.mem_append_right _ (List.mem_singleton_self key)
        exact absurd last absent
      · have span := clock.span t begun
        rwa [unfinished] at span
      · cases ended
        exact Int.le_refl _

theorem move (T : Timely m) (h : Sound ps m) (move : Move m m') : Timely m' := by
  cases move with
  | idle =>
    have later : m.now ≤ m.now + 1 := by omega
    exact T.of_bodies later (fun _ => rfl) (fun _ => id) fun _ => id
  | stall stall => exact T.spell h stall.facing.current (.of_stall h stall)
  | linger stuck => exact T.spell h stuck.current (.of_charge _ _)
  | work work =>
    cases work with
    | outside same => exact T.of_inside same
    | promote known stands due moved => exact T.promote h known stands due moved
    | dispatch dispatch => exact T.dispatch h dispatch
    | complete completion => exact T.spell h completion.facing.current (.of_completion h completion)
    | block blocking => exact T.spell h blocking.facing.current (.of_blocking blocking)
    | depart departure => exact T.depart h departure

theorem load (T : Timely m) {P : Program} (load : Load P m m') : Timely m' := by
  obtain @⟨memory, last, s, released, loaded, arrival⟩ := load
  have pending : s.queue .pending = m.scheduler.queue .pending ++ [m.scheduler.processes.nextKey] :=
    (arrival.queue .pending).trans (if_pos rfl)
  have terminated : s.queue .terminated = m.scheduler.queue .terminated :=
    (arrival.queue .terminated).trans (if_neg (by decide))
  refine T.of_others m.scheduler.processes.nextKey (Int.le_refl _) (fun k ne => ?_)
    (fun k _ waits => ?_) (fun k _ gone => ?_) ?_
  · rw [Scheduler.body?, show Scheduler.process? _ k = _ from arrival.process? k, if_neg ne]
    rfl
  · exact pending.symm ▸ List.mem_append_left _ waits
  · exact terminated.symm ▸ gone
  · intro p' known'
    have new := (arrival.process? m.scheduler.processes.nextKey).trans (if_pos rfl)
    cases new.symm.trans known'
    have waits : m.scheduler.processes.nextKey ∈ s.queue .pending :=
      pending.symm ▸ List.mem_append_right _ (List.mem_singleton_self _)
    exact ⟨fun absent => absurd waits absent, fun _ => rfl, Int.le_refl 0, fun _ => rfl,
      fun t begun => absurd begun (Option.some_ne_none t).symm,
      fun t ended => absurd ended (Option.some_ne_none t).symm⟩

end Timely

/-! ### The records -/

/-- The record of the process under a key, if it has started and ended. -/
def Scheduler.record? (s : Scheduler) (key : Int) : Option Record :=
  (s.process? key).bind Record.ofProcess?

theorem Scheduler.record?_eq {s s' : Scheduler} {key : Int} (same : s'.body? key = s.body? key) :
    s'.record? key = s.record? key := by
  have read : ∀ s : Scheduler, s.record? key = ((s.process? key).map Record.ofProcess?).join := by
    intro s
    cases known : s.process? key <;> simp [record?, known]
  rw [read, read, map_process?_of_body? (fun _ => rfl) same]

theorem Record.ofProcess?_eq_some {p : ControlBlock} {r : Record}
    (recorded : Record.ofProcess? p = some r) : ∃ start finish, p.startTime = some start ∧
      p.endTime = some finish ∧ r = .ofTimes p.pid p.releaseTime start finish p.executed := by
  unfold ofProcess? at recorded
  split at recorded
  · rename_i start finish started ended
    exact ⟨start, finish, started, ended, (Option.some.inj recorded).symm⟩
  · cases recorded

theorem Metrics.completed_logSlice (x : Metrics) (s : Slice) :
    (x.logSlice s).completed = x.completed := by
  rw [logSlice_frame]

/-- The records are those of the terminated processes, in the order in which they ended. -/
structure Recorded (m : Machine) : Prop where
  records : m.metrics.completed.map some
    = (m.scheduler.queue .terminated).map m.scheduler.record?
  ordered : m.metrics.completed.Pairwise fun a b => a.finish ≤ b.finish
  past : ∀ r ∈ m.metrics.completed, r.finish ≤ m.now

namespace Recorded

variable {ps : List Program} {m m' : Machine} {key : Int} {p : ControlBlock} {i : Instruction}

/-- Nothing is to be recorded as long as the terminated processes stay as they are. -/
theorem of_same (R : Recorded m) (now : m.now ≤ m'.now)
    (completed : m'.metrics.completed = m.metrics.completed)
    (terminated : m'.scheduler.queue .terminated = m.scheduler.queue .terminated)
    (bodies : ∀ k, k ∈ m.scheduler.queue .terminated →
      m'.scheduler.body? k = m.scheduler.body? k) : Recorded m' := by
  refine ⟨?_, completed.symm ▸ R.ordered, fun r hr => ?_⟩
  · rw [completed, terminated, R.records]
    exact List.map_congr_left fun k gone => (Scheduler.record?_eq (bodies k gone)).symm
  · exact Int.le_trans (R.past r (completed ▸ hr)) now

theorem of_inside (R : Recorded m) (same : m'.inside = m.inside) : Recorded m' := by
  have scheduler := Machine.scheduler_of_inside same
  refine R.of_same (Int.le_of_eq (Machine.now_of_inside same).symm) ?_ ?_ fun k _ => ?_
  · rw [Machine.metrics_of_inside same]
  · rw [scheduler]
  · rw [scheduler]

theorem dispatch (R : Recorded m) (h : Sound ps m) (dispatch : Dispatch key p m m') :
    Recorded m' := by
  obtain ⟨known, stands⟩ := dispatch.stands h
  refine R.of_same (Int.le_of_eq dispatch.now.symm) (by rw [dispatch.metrics])
    (dispatch.queue _ (by decide) (by decide)) fun k gone => dispatch.body?_of_ne ?_
  rintro rfl
  exact h.orderly.not_mem_queue known stands (by decide) gone

theorem spell (R : Recorded m) (h : Sound ps m) (current : m.current = some key) {n : Nat}
    (spell : Spell key n m m') : Recorded m' := by
  have now := spell.now
  obtain ⟨p, st, known, -, stands, -, ends⟩ := h.station_of_current current
  refine R.of_same (by omega) (by rw [spell.metrics]; rfl) spell.terminated fun k gone => ?_
  refine spell.others k ?_
  rintro rfl
  exact h.orderly.not_mem_queue known stands ends gone

theorem depart (R : Recorded m) (h : Sound ps m) {start : Int}
    (departure : Departure key start m m') : Recorded m' := by
  have bodies := fun k ne => departure.body?_of_ne (k := k) ne
  cases departure with
  | yield =>
    exact R.of_same (Int.le_refl _) (m.metrics.completed_logSlice _) rfl fun _ _ => rfl
  | preempt facing moved =>
    exact R.of_same (Int.le_refl _) (m.metrics.completed_logSlice _)
      (moved.queue_of_ne (by decide) (by decide)) fun k _ => moved.body?_eq k
  | @terminate p s record current known runs at_end moved recorded =>
    have stands := h.orderly.station?_of_running known runs
    have known' := moved.process?_self (m.scheduler.process?_amend_self known
      (ControlBlock.ended m.now))
    have terminated : s.queue .terminated = m.scheduler.queue .terminated ++ [key] := by
      rw [moved.queue, if_pos rfl, Scheduler.queue_amend]
    have completed : ((m.metrics.logSlice ⟨key, start, m.now⟩).logRecord record).completed
        = m.metrics.completed ++ [record] :=
      congrArg (· ++ [record]) (m.metrics.completed_logSlice _)
    have finish : record.finish = m.now := by
      obtain ⟨_, _, -, ended, rfl⟩ := Record.ofProcess?_eq_some recorded
      cases ended
      rfl
    refine ⟨?_, ?_, fun r hr => ?_⟩
    · have old : ∀ k ∈ m.scheduler.queue .terminated, s.record? k = m.scheduler.record? k := by
        intro k gone
        have ne : k ≠ key := by
          rintro rfl
          exact h.orderly.not_mem_queue known stands (by decide) gone
        exact Scheduler.record?_eq (bodies k ne)
      have new : s.record? key = some record := by
        rw [Scheduler.record?, known']
        exact recorded
      show List.map some (Metrics.completed _) = List.map s.record? (s.queue .terminated)
      rw [completed, terminated, List.map_append, List.map_append, List.map_congr_left old,
        R.records, List.map_singleton, List.map_singleton, new]
    · show List.Pairwise _ (Metrics.completed _)
      rw [completed, List.pairwise_append]
      refine ⟨R.ordered, List.pairwise_singleton _ _, fun r hr r' hr' => ?_⟩
      rw [List.mem_singleton.1 hr', finish]
      exact R.past r hr
    · rcases List.mem_append.1 (completed ▸ hr : r ∈ m.metrics.completed ++ [record]) with old | new
      · exact R.past r old
      · rw [List.mem_singleton.1 new]
        exact Int.le_of_eq finish

theorem move (R : Recorded m) (h : Sound ps m) (move : Move m m') : Recorded m' := by
  cases move with
  | idle =>
    have later : m.now ≤ m.now + 1 := by omega
    exact R.of_same later rfl rfl fun _ _ => rfl
  | stall stall => exact R.spell h stall.facing.current (.of_stall h stall)
  | linger stuck => exact R.spell h stuck.current (.of_charge _ _)
  | work work =>
    cases work with
    | outside same => exact R.of_inside same
    | promote known stands due moved =>
      exact R.of_same (Int.le_refl _) rfl (moved.queue_of_ne (by decide) (by decide))
        fun k _ => moved.body?_eq k
    | dispatch dispatch => exact R.dispatch h dispatch
    | complete completion => exact R.spell h completion.facing.current (.of_completion h completion)
    | block blocking => exact R.spell h blocking.facing.current (.of_blocking blocking)
    | depart departure => exact R.depart h departure

theorem load (R : Recorded m) (h : Sound ps m) {P : Program} (load : Load P m m') :
    Recorded m' := by
  obtain @⟨memory, last, s, released, loaded, arrival⟩ := load
  refine R.of_same (Int.le_refl _) rfl ((arrival.queue .terminated).trans (if_neg (by decide)))
    fun k gone => ?_
  obtain ⟨q, known, -⟩ := h.orderly.process?_of_mem gone
  exact congrArg (Option.map ControlBlock.body) ((arrival.process?_of_some known).trans known.symm)

end Recorded

/-- Wherever requests lead, the times of the processes agree with the clock and the records with the
terminated processes. -/
theorem Reachable.timely {ps : List Program} {m : Machine} (h : Reachable ps m) :
    ∃ s, Kept ps s m ∧ Timely s ∧ Recorded s := by
  refine h.invariant_of_made (Q := fun _ m => Timely m ∧ Recorded m) ?_ ?_ ?_
  · intro m _ empty _ metrics
    refine ⟨fun key p known => ?_, ?_, ?_, ?_⟩
    · rw [empty, Scheduler.process?_empty] at known
      cases known
    · rw [metrics, empty]
      rfl
    · rw [metrics]
      exact .nil
    · rw [metrics]
      exact nofun
  · exact fun ps P m m' sound ⟨times, records⟩ load => ⟨times.load load, records.load sound load⟩
  · exact fun ps m m' sound ⟨times, records⟩ move => ⟨times.move sound move, records.move sound move⟩

namespace Recorded

variable {m : Machine}

/-- A record is that of the process that it names, which is terminated. -/
theorem record?_of_mem (R : Recorded m) (orderly : m.scheduler.Orderly) {r : Record}
    (hr : r ∈ m.metrics.completed) :
    r.pid ∈ m.scheduler.queue .terminated ∧ m.scheduler.record? r.pid = some r := by
  have mem : some r ∈ m.metrics.completed.map some := List.mem_map_of_mem hr
  rw [R.records] at mem
  obtain ⟨key, gone, recorded⟩ := List.mem_map.1 mem
  obtain ⟨p, known, own⟩ := Option.bind_eq_some_iff.1 recorded
  obtain ⟨_, _, -, -, rfl⟩ := Record.ofProcess?_eq_some own
  have pid : p.pid = key := orderly.pid key p known
  exact ⟨pid.symm ▸ gone, pid.symm ▸ recorded⟩

/-- The records name the terminated processes in their order. -/
theorem pids (R : Recorded m) (orderly : m.scheduler.Orderly) :
    m.metrics.completed.map Record.pid = m.scheduler.queue .terminated := by
  have named : ∀ key ∈ m.scheduler.queue .terminated,
      (m.scheduler.record? key).map Record.pid = some key := by
    intro key gone
    have mem : m.scheduler.record? key ∈ (m.scheduler.queue .terminated).map m.scheduler.record? :=
      List.mem_map_of_mem gone
    rw [← R.records] at mem
    obtain ⟨r, -, recorded⟩ := List.mem_map.1 mem
    obtain ⟨p, known, own⟩ := Option.bind_eq_some_iff.1 recorded.symm
    obtain ⟨_, _, -, -, rfl⟩ := Record.ofProcess?_eq_some own
    rw [← recorded]
    exact congrArg some (orderly.pid key p known)
  have both := congrArg (List.map (Option.map Record.pid)) R.records
  rw [List.map_map, List.map_map] at both
  have keys : (m.scheduler.queue .terminated).map (Option.map Record.pid ∘ m.scheduler.record?)
      = (m.scheduler.queue .terminated).map some := List.map_congr_left named
  rw [keys, show Option.map Record.pid ∘ some = some ∘ Record.pid from rfl, ← List.map_map] at both
  exact List.map_injective_iff.2 (fun _ _ => Option.some.inj) both

end Recorded

/-- What the record of a process says, which was blocked so many times on its way through a
program. -/
structure Accounted (P : Program) (blocked : Nat) (now : Int) (r : Record) : Prop where
  release : r.release = P.release
  started : r.release ≤ r.start
  finished : r.start ≤ r.finish
  past : r.finish ≤ now
  burst : r.burst = P.lines.length + blocked
  worked : r.burst ≤ r.finish - r.start
  turnaround : r.turnaround = r.finish - r.release
  /-- No time is lost: what a process did not execute it waited. -/
  split : r.turnaround = r.waiting + r.burst
  response : r.response = r.start - r.release
  response_nonneg : 0 ≤ r.response
  response_le : r.response ≤ r.waiting

/-- Since a process does not execute more than there are ticks, its waiting is never cut off. -/
theorem Accounted.of_times {P : Program} {blocked : Nat} {now pid release start finish burst : Int}
    (released : release = P.release) (started : release ≤ start) (worked : start + burst ≤ finish)
    (past : finish ≤ now) (all : burst = P.lines.length + blocked) :
    Accounted P blocked now (.ofTimes pid release start finish burst) := by
  have waiting : (Record.ofTimes pid release start finish burst).waiting
      = max 0 (finish - release - burst) := rfl
  have whole : max 0 (finish - release - burst) = finish - release - burst := by omega
  rw [whole] at waiting
  refine ⟨released, started, ?_, past, all, ?_, rfl, ?_, rfl, ?_, ?_⟩
  · show start ≤ finish
    omega
  · show burst ≤ finish - start
    omega
  · rw [waiting]
    show finish - release = finish - release - burst + burst
    omega
  · show 0 ≤ start - release
    omega
  · rw [waiting]
    show start - release ≤ finish - release - burst
    omega

/-- A terminated process has executed the lines of its program, and again every wait that blocked it. -/
theorem History.executed_of_terminated {ps : List Program} {l : List Execution} {m : Machine}
    (h : History ps l m) {key : Int} {P : Program} {p : ControlBlock}
    (hP : Program.under ps key = some P) (known : m.scheduler.process? key = some p)
    (terminated : p.state = .terminated) :
    p.executed = P.lines.length + (Execution.own key l).countP Execution.blocked := by
  have at_end := (h.reachable.at_end_iff hP known).2 (.inl terminated)
  by_cases rests : m.Rests
  · obtain ⟨leads, counted⟩ := (h.ledger rests).own key p known
    have length := leads.length_eq
    omega
  · -- a process that executes something in vain keeps the processor and does not end
    have V := h.vain rests
    obtain ⟨s, kept⟩ := h.reachable.kept
    have off : m.current ≠ some key := by
      intro current
      obtain ⟨q, hq, -, state⟩ := kept.sound.processor.current key (kept.mirrors.current ▸ current)
      cases (kept.mirrors.process? key).symm.trans known |>.symm.trans hq
      rw [terminated] at state
      rcases state with runs | blocked
      · cases runs
      · cases blocked
    have nothing : Execution.own key l = [] := by
      refine List.filter_eq_nil_iff.2 fun e he same => off ?_
      rw [V.executed e he, of_decide_eq_true same]
    have start := V.start key p known
    have untouched := V.untouched key p known off
    rw [nothing, untouched]
    simp only [List.countP_nil]
    omega

/-- Wherever requests lead, the records are those of the terminated processes, in the order in which
they ended. Each says that its process was released, started and ended in this order and executed the
lines of its program, and again every wait that blocked it. What is left of its turnaround is its
waiting, and its response is part of that. -/
theorem Reachable.recorded {ps : List Program} {m : Machine} (h : Reachable ps m) :
    m.metrics.completed.map Record.pid = m.scheduler.terminated ∧ m.scheduler.terminated.Nodup ∧
    (m.metrics.completed.Pairwise fun a b => a.finish ≤ b.finish) ∧
    (∃ l, History ps l m) ∧ ∀ l, History ps l m → ∀ r ∈ m.metrics.completed,
      m.scheduler.record? r.pid = some r ∧ ∃ P, Program.under ps r.pid = some P ∧
        Accounted P ((Execution.own r.pid l).countP Execution.blocked) m.now r := by
  obtain ⟨s, kept, times, records⟩ := h.timely
  have sound := kept.sound
  have mirrors := kept.mirrors
  have terminated : m.scheduler.terminated = s.scheduler.queue .terminated :=
    mirrors.queue .terminated fun _ => Station.noConfusion
  rw [terminated, mirrors.metrics, mirrors.now]
  refine ⟨records.pids sound.orderly, sound.orderly.nodup_queue .terminated, records.ordered,
    h.exists_history, fun l history r hr => ?_⟩
  obtain ⟨gone, recorded⟩ := records.record?_of_mem sound.orderly hr
  obtain ⟨p, known, own⟩ := Option.bind_eq_some_iff.1 recorded
  obtain ⟨P, hP, placed⟩ := sound.layout.lookup known
  have known' := (mirrors.process? r.pid).trans known
  refine ⟨by rw [Scheduler.record?, known']; exact own, ?_⟩
  have clock := times r.pid p known
  obtain ⟨start, finish, started, ended, eq⟩ := Record.ofProcess?_eq_some own
  obtain ⟨after, enough⟩ := clock.span start started
  rw [ended] at enough
  have all := history.executed_of_terminated hP known' (sound.orderly.state_of_mem gone known)
  have accounted : Accounted P ((Execution.own r.pid l).countP Execution.blocked) s.now
      (.ofTimes p.pid p.releaseTime start finish p.executed) :=
    .of_times placed.release after enough (clock.past finish ended) all
  rw [← eq] at accounted
  exact ⟨P, hP, accounted⟩

/-- Two processes contend for a resource, one turn per instruction. The second is released late, is
blocked once, and ends last. -/
theorem Reachable.recorded_contending : ∃ m l,
    History [⟨["semWait file", "print x", "semSignal file"], 0⟩,
      ⟨["semWait file", "semSignal file"], 1⟩] l m ∧
    m.metrics.completed = [⟨1, 0, 0, 4, 3, 4, 1, 0⟩, ⟨2, 1, 2, 6, 3, 5, 2, 1⟩] ∧
    m.metrics.completed.map Record.pid = m.scheduler.terminated ∧
    Accounted ⟨["semWait file", "semSignal file"], 1⟩
      ((Execution.own 2 l).countP Execution.blocked) m.now ⟨2, 1, 2, 6, 3, 5, 2, 1⟩ := by
  have made := History.fresh 1 20 (by decide) (by decide)
  have first := made.after_createProcess ["semWait file", "print x", "semSignal file"] 0
    (by decide) (by decide)
  have second := first.after_createProcess ["semWait file", "semSignal file"] 1
    (by decide) (by decide)
  have last := second.step.step.step.step.step.step
  have recorded := last.reachable.recorded
  obtain ⟨-, P, hP, accounted⟩ :=
    recorded.2.2.2.2 _ last ⟨2, 1, 2, 6, 3, 5, 2, 1⟩ (by decide +kernel)
  cases hP
  exact ⟨_, _, last, by decide +kernel, recorded.1, accounted⟩

end RoundRobin
