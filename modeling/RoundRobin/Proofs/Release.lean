import RoundRobin.Proofs.Records
import RoundRobin.Proofs.Standstill

/-!
# Release times

Nobody runs before its release time (`Reachable.unreleased`). Every step promotes the pending
processes whose time has come and no others, also if it ends in a fault later (`Elapsed.pending`). If
nobody has the processor, a step is a tick only if all processes are terminated, blocked or not yet
released (`Sound.ticks_iff`), and else it begins a turn (`Sound.beginsTurn`). A step takes at most the
quantum and promotes before that, so a process comes to the ready queue less than a quantum after its
release time, and right at it after a tick (`Reachable.released_in_time`).
-/

namespace RoundRobin

open Operation

/-! ### What a step does to the clock and to those who wait for their release -/

theorem Departure.pending {key start : Int} {m m' : Machine} (d : Departure key start m m') :
    m'.scheduler.queue .pending = m.scheduler.queue .pending := by
  cases d with
  | yield => rfl
  | preempt facing moved => exact moved.queue_of_ne nofun nofun
  | terminate current known runs at_end moved recorded =>
    refine Eq.trans (moved.queue_of_ne nofun nofun) ?_
    exact m.scheduler.queue_amend key (ControlBlock.ended m.now) .pending

theorem Occupied.pending {key : Int} {m m' : Machine} (o : Occupied key m m') :
    m'.scheduler.queue .pending = m.scheduler.queue .pending := by
  cases o with
  | busy => rfl
  | dispatched dispatch same =>
    rw [Machine.scheduler_of_inside same]
    exact dispatch.queue .pending nofun nofun

theorem Mirrors.due {s m : Machine} (h : Mirrors s m) :
    m.scheduler.due m.now = s.scheduler.due s.now := by
  funext key
  unfold Scheduler.due
  rw [h.process?, h.now]

/-- Some time has passed, at most a quantum, and of the pending processes those are left that were
not due before. -/
structure Elapsed (m m' : Machine) : Prop where
  le : m.now ≤ m'.now
  soon : m'.now ≤ m.now + m.quantum
  quantum : m'.quantum = m.quantum
  pending : m'.scheduler.queue .pending
    = (m.scheduler.queue .pending).filter fun key => !m.scheduler.due m.now key

namespace Elapsed

variable {ps : List Program} {key : Int} {m m₁ m₂ m' : Machine}

/-- What happens on the processor after the promotion takes at most the quantum, if it leaves the
pending processes alone. -/
theorem of_spell {n : Nat} (positive : 0 < m.quantum) (promotion : Promotion m m₁)
    (occupied : Occupied key m₁ m₂) (short : n ≤ m₂.quantum.toNat) (now : m'.now = m₂.now + n)
    (quantum : m'.quantum = m₂.quantum)
    (pending : m'.scheduler.queue .pending = m₂.scheduler.queue .pending) : Elapsed m m' := by
  have now₂ : m₂.now = m.now := occupied.now.trans promotion.now
  have quantum₂ : m₂.quantum = m.quantum := occupied.quantum.trans promotion.quantum
  refine ⟨by omega, by omega, quantum.trans quantum₂, ?_⟩
  rw [pending, occupied.pending, promotion.pending]

/-- How much time passes does not depend on who waits for a resource. -/
theorem of_mirrors {s s' : Machine} (elapsed : Elapsed s s') (before : Mirrors s m)
    (behind : Mirrors s' m') : Elapsed m m' := by
  have now := before.now
  have now' := behind.now
  have quantum := before.quantum
  have le := elapsed.le
  have soon := elapsed.soon
  refine ⟨by omega, by omega, ?_, ?_⟩
  · rw [behind.quantum, elapsed.quantum, quantum]
  · rw [behind.queue .pending fun _ => Station.noConfusion, elapsed.pending,
      before.queue .pending fun _ => Station.noConfusion, before.due]

end Elapsed

/-- A step that lets a tick pass. -/
def Machine.Ticks (m : Machine) : Prop := ∃ m', Machine.step m = .ok false m'

namespace Sound

variable {ps : List Program} {m : Machine}

/-- What a step takes, also if it ends in a fault. -/
theorem elapsed (h : Sound ps m) (settled : Settled m) : Elapsed m (after Machine.step m) := by
  have positive := h.layout.quantum_pos
  have step := h.step_result settled
  unfold after
  cases result : Machine.step m with
  | ok ran m' =>
    rw [result] at step
    cases step with
    | idle promotion idle nobody same =>
      have now : m'.now = m.now + 1 :=
        (Machine.now_of_inside same).trans (congrArg (· + 1) promotion.now)
      dsimp only
      refine ⟨by omega, by omega, (Machine.quantum_of_inside same).trans promotion.quantum, ?_⟩
      rw [Machine.scheduler_of_inside same]
      exact promotion.pending
    | turn promotion occupied turn =>
      obtain ⟨stretch, departure, same⟩ := turn
      have h₂ := (h.works promotion.works).works occupied.works
      obtain ⟨n, short, spell, -, -⟩ := stretch.spell h₂
      refine .of_spell positive promotion occupied short ?_ ?_ ?_
      · rw [Machine.now_of_inside same, departure.now, spell.now]
      · rw [Machine.quantum_of_inside same, departure.quantum, spell.quantum]
      · rw [Machine.scheduler_of_inside same, departure.pending, spell.pending]
  | error fault m' =>
    rw [result] at step
    cases step with
    | fault promotion occupied halt =>
      have h₂ := (h.works promotion.works).works occupied.works
      obtain ⟨n, short, spell⟩ := halt.spell h₂
      exact .of_spell positive promotion occupied short spell.now spell.quantum spell.pending

/-- A tick takes one unit of time. -/
theorem now_of_ticks (h : Sound ps m) (settled : Settled m) (ticks : m.Ticks) :
    (after Machine.step m).now = m.now + 1 := by
  obtain ⟨m', took⟩ := ticks
  have step := h.step_result settled
  rw [took] at step
  rw [after_of_ok took]
  cases step with
  | idle promotion idle nobody same =>
    rw [Machine.now_of_inside same]
    exact congrArg (· + 1) promotion.now

end Sound

namespace Kept

variable {ps : List Program} {s m : Machine}

theorem elapsed (h : Kept ps s m) : Elapsed m (after Machine.step m) := by
  cases h with
  | clear sound settled => exact sound.elapsed settled
  | @crowded key p r n _ sound stuck same =>
    obtain ⟨s₁, fault, m', promotion, stuck₁, -, result, -, inside⟩ := stuck.step sound same
    have sound₁ := sound.moves (promotion.works.moves.tail (.linger stuck₁))
    have positive := sound.layout.quantum_pos
    have quantum : s₁.quantum = s.quantum := promotion.quantum
    have short : 1 ≤ s₁.quantum.toNat := by omega
    have spell := Spell.of_charge s₁ key
    have elapsed := Elapsed.of_spell positive promotion (.busy stuck₁.current) short spell.now
      spell.quantum spell.pending
    rw [after_of_error result]
    exact elapsed.of_mirrors (stuck.mirrors sound same) (stuck₁.charge.mirrors sound₁ inside)

theorem now_of_ticks (h : Kept ps s m) (ticks : m.Ticks) :
    (after Machine.step m).now = m.now + 1 := by
  cases h with
  | clear sound settled => exact sound.now_of_ticks settled ticks
  | crowded sound stuck same =>
    obtain ⟨m', took⟩ := ticks
    obtain ⟨_, _, _, -, -, -, result, -, -⟩ := stuck.step sound same
    cases took.symm.trans result

/-- The promotion does not depend on who waits for a resource, either. -/
theorem promote_works (h : Kept ps s m) :
    ∃ s₁ m₁, Promotion s s₁ ∧ Machine.promote m = .ok () m₁ ∧ Mirrors s₁ m₁ := by
  cases h with
  | clear sound settled =>
    obtain ⟨m₁, promoted, promotion⟩ := sound.promote_works
    exact ⟨m₁, m₁, promotion, promoted, .of_inside rfl⟩
  | crowded sound stuck same =>
    obtain ⟨s₁, m₁, promotion, stuck₁, promoted, same₁⟩ := stuck.promotes sound same
    exact ⟨s₁, m₁, promotion, promoted, stuck₁.mirrors (sound.works promotion.works) same₁⟩

end Kept

/-! ### Before the release -/

/-- A process is pending exactly if it stands in the pending queue. -/
theorem Scheduler.Orderly.mem_pending_iff {s : Scheduler} (h : s.Orderly) {key : Int}
    {p : ControlBlock} (known : s.process? key = some p) :
    key ∈ s.queue .pending ↔ p.state = .pending := by
  refine ⟨fun waits => h.state_of_mem waits known, fun pending => ?_⟩
  obtain ⟨st, stands⟩ := h.station key p known
  have state := (ControlBlock.state_of_station? stands).symm.trans pending
  apply h.mem_queue_of_station known
  cases st <;> first | exact stands | cases state

theorem Seen.mem_pending_iff {ps : List Program} {s m : Machine} (h : Seen ps s m) {key : Int}
    {p : ControlBlock} (known : m.scheduler.process? key = some p) :
    key ∈ m.scheduler.queue .pending ↔ p.state = .pending := by
  rw [h.mirrors.queue .pending fun _ => Station.noConfusion]
  exact h.sound.orderly.mem_pending_iff ((h.mirrors.process? key).symm.trans known)

/-- A process that executed nothing stands at its first line. -/
theorem History.pc_of_executed {ps : List Program} {l : List Execution} {m : Machine}
    (h : History ps l m) {key : Int} {p : ControlBlock} (known : m.scheduler.process? key = some p)
    (nothing : p.executed = 0) : p.pc = p.lowerBound := by
  by_cases rests : m.Rests
  · obtain ⟨leads, counted⟩ := (h.ledger rests).own key p known
    have none_own : Execution.own key l = [] := List.length_eq_zero_iff.1 (by omega)
    rw [none_own] at leads
    exact Eq.symm leads
  · exact (h.vain rests).start key p known

/-- A process is pending, untouched, until its release time. -/
theorem Reachable.unreleased {ps : List Program} {m : Machine} (h : Reachable ps m) {key : Int}
    {p : ControlBlock} (known : m.scheduler.process? key = some p) (early : m.now < p.releaseTime) :
    p.state = .pending ∧ p.startTime = none ∧ p.pc = p.lowerBound ∧ p.executed = 0 := by
  obtain ⟨s, kept, times, -⟩ := h.timely
  have orderly := kept.sound.orderly
  have known' := (kept.mirrors.process? key).symm.trans known
  have clock := times key p known'
  have now := kept.mirrors.now
  have waits : key ∈ s.scheduler.queue .pending := by
    by_contra absent
    have released := clock.released absent
    omega
  have pending := (orderly.mem_pending_iff known').1 waits
  have unfinished : p.endTime = none := by
    apply clock.unfinished
    intro gone
    have state := (orderly.state_of_mem gone known').symm.trans pending
    cases state
  have unstarted : p.startTime = none := by
    refine Option.eq_none_iff_forall_ne_some.2 fun t started => ?_
    obtain ⟨after, before⟩ := clock.span t started
    have counted := clock.counted
    rw [unfinished, Option.getD_none] at before
    omega
  have nothing : p.executed = 0 := clock.fresh unstarted
  obtain ⟨l, history⟩ := h.exists_history
  exact ⟨pending, unstarted, history.pc_of_executed known nothing, nothing⟩

/-! ### Idle ticks -/

/-- Every process is terminated, blocked, or not yet released. -/
def Machine.Dormant (m : Machine) : Prop :=
  ∀ key p, m.scheduler.process? key = some p →
    p.state = .terminated ∨ p.state = .blocked ∨ m.now < p.releaseTime

/-- After the promotion and the dispatch, without any time passed, the process under a key has the
processor, and the rest of the step is its turn. -/
def Machine.BeginsTurn (m : Machine) (key : Int) : Prop :=
  ∃ m₁ m₂, Machine.promote m = .ok () m₁ ∧ Machine.occupy m₁ = .ok () m₂ ∧ m₂.Runs key ∧
    m₂.now = m.now ∧
    Machine.step m = (do let _ ← Machine.burst; return true : Operation Bool) m₂

/-- A step that begins a turn is no tick. -/
theorem Machine.BeginsTurn.not_ticks {m : Machine} {key : Int} (begins : m.BeginsTurn key) :
    ¬m.Ticks := by
  rintro ⟨m', took⟩
  obtain ⟨m₁, m₂, -, -, -, -, step⟩ := begins
  rw [took, bind_apply] at step
  cases result : Machine.burst m₂ with
  | ok key' m₃ =>
    rw [result] at step
    cases step
  | error fault m₃ =>
    rw [result] at step
    cases step

namespace Sound

variable {ps : List Program} {m : Machine}

/-- If nobody has the processor, nobody can run exactly if nobody is ready or due. -/
theorem dormant_iff (h : Sound ps m) (settled : Settled m) (times : Timely m)
    (idle : m.current = none) : m.Dormant ↔ m.Waits 1 := by
  constructor
  · intro dormant
    refine ⟨idle, ?_, fun key waits => ?_⟩
    · refine List.eq_nil_iff_forall_not_mem.2 fun key waits => ?_
      obtain ⟨p, known, stands⟩ := h.orderly.process?_of_mem waits
      have state := h.orderly.state_of_mem waits known
      have released := (times key p known).released (h.orderly.not_mem_queue known stands nofun)
      rcases dormant key p known with ended | blocked | early
      · cases state.symm.trans ended
      · cases state.symm.trans blocked
      · omega
    · obtain ⟨p, known, -⟩ := h.orderly.process?_of_mem waits
      have state := h.orderly.state_of_mem waits known
      refine ⟨p, known, ?_⟩
      rcases dormant key p known with ended | blocked | early
      · cases state.symm.trans ended
      · cases state.symm.trans blocked
      · omega
  · intro waits key p known
    obtain ⟨st, stands⟩ := h.orderly.station key p known
    have state := ControlBlock.state_of_station? stands
    have mem := h.orderly.mem_queue_of_station known stands
    cases st with
    | running =>
      rw [h.queue_running settled, idle] at mem
      cases mem
    | ready =>
      rw [waits.nobody] at mem
      cases mem
    | pending =>
      obtain ⟨q, known', later⟩ := waits.early key mem
      cases known.symm.trans known'
      exact .inr (.inr (by omega))
    | blocked r => exact .inr (.inl state)
    | terminated => exact .inl state

/-- If nobody has the processor and somebody can run, a step begins a turn. -/
theorem beginsTurn (h : Sound ps m) (settled : Settled m) (times : Timely m)
    (idle : m.current = none) (awake : ¬m.Dormant) : ∃ key, m.BeginsTurn key := by
  have somebody : m.scheduler.queue .ready ≠ [] ∨
      ∃ key ∈ m.scheduler.queue .pending, m.ticksUntil key = 0 := by
    by_contra nobody
    rw [not_or, not_ne_iff, not_exists] at nobody
    refine awake ((h.dormant_iff settled times idle).2 ⟨idle, nobody.1, fun key waits => ?_⟩)
    obtain ⟨p, known, -⟩ := h.orderly.process?_of_mem waits
    have later : m.ticksUntil key ≠ 0 := fun come => nobody.2 key ⟨waits, come⟩
    rw [Machine.ticksUntil_eq known] at later
    exact ⟨p, known, by omega⟩
  obtain ⟨key, m₁, m₂, promoted, promotion, run, occupied⟩ := h.occupied_of_somebody somebody
  have runs : m₂.Runs key := occupied.runs (promotion.settled h settled)
  refine ⟨key, m₁, m₂, promoted, run, runs, occupied.now.trans promotion.now, ?_⟩
  rw [Machine.step_eq promoted run, Machine.proceed_of_busy runs.1]

/-- If nobody has the processor, a step is a tick exactly if nobody can run. -/
theorem ticks_iff (h : Sound ps m) (settled : Settled m) (times : Timely m)
    (idle : m.current = none) : m.Ticks ↔ m.Dormant := by
  constructor
  · intro ticks
    by_contra awake
    obtain ⟨key, begins⟩ := h.beginsTurn settled times idle awake
    exact begins.not_ticks ticks
  · intro dormant
    exact ⟨_, ((h.dormant_iff settled times idle).1 dormant).step⟩

end Sound

/-- A step leaves a pending process pending exactly if it is not released yet. -/
theorem Kept.pending_after_step {ps : List Program} {s m : Machine} (h : Kept ps s m) {key : Int}
    {p : ControlBlock} (known : m.scheduler.process? key = some p) (pending : p.state = .pending) :
    ∃ p', (after Machine.step m).scheduler.process? key = some p' ∧
      (p'.state = .pending ↔ m.now < p.releaseTime) := by
  obtain ⟨s', kept', -⟩ := h.step
  obtain ⟨P, hP, -⟩ := h.layout.lookup known
  obtain ⟨p', known'⟩ := kept'.layout.process?_of_under hP
  refine ⟨p', known', ?_⟩
  rw [← kept'.seen.mem_pending_iff known', h.elapsed.pending, List.mem_filter,
    Scheduler.due_eq known]
  simp [(h.seen.mem_pending_iff known).2 pending]

/-! ### How late a process is promoted -/

/-- The next step takes a process from the pending queue to the ready queue before anything else. -/
def Machine.Promotes (m : Machine) (key : Int) : Prop :=
  key ∈ m.scheduler.pending ∧ ∃ m', Machine.promote m = .ok () m' ∧ key ∈ m'.scheduler.ready

theorem Kept.promotes_iff {ps : List Program} {s m : Machine} (h : Kept ps s m) {key : Int}
    {P : Program} (hP : Program.under ps key = some P) :
    m.Promotes key ↔ key ∈ m.scheduler.pending ∧ P.release ≤ m.now := by
  obtain ⟨s₁, m₁, promotion, promoted, mirrors₁⟩ := h.promote_works
  have mirrors := h.mirrors
  have orderly := h.sound.orderly
  obtain ⟨p, known⟩ := h.sound.layout.process?_of_under hP
  have release := (h.sound.layout.placed key P p hP known).release
  have due : s.scheduler.due s.now key = true ↔ P.release ≤ m.now := by
    rw [Scheduler.due_eq known, decide_eq_true_iff, release, mirrors.now]
  have pending : m.scheduler.pending = s.scheduler.queue .pending :=
    mirrors.queue .pending fun _ => Station.noConfusion
  have ready : m₁.scheduler.ready = s₁.scheduler.queue .ready :=
    mirrors₁.queue .ready fun _ => Station.noConfusion
  rw [Machine.Promotes, pending]
  refine and_congr_right fun waits => ?_
  have elsewhere : key ∉ s.scheduler.queue .ready := by
    intro ready
    have state := orderly.state_of_mem ready known
    cases state.symm.trans (orderly.state_of_mem waits known)
  constructor
  · rintro ⟨m₂, promoted', ready'⟩
    cases promoted.symm.trans promoted'
    rw [ready, promotion.ready, List.mem_append, List.mem_filter] at ready'
    exact due.1 (ready'.resolve_left elsewhere).2
  · intro released
    refine ⟨m₁, promoted, ?_⟩
    rw [ready, promotion.ready, List.mem_append, List.mem_filter]
    exact .inr ⟨waits, due.2 released⟩

/-- How a machine goes on, with the machines before each step, which may end in a fault. In between
programs may be loaded or refused, and anything may change outside of the machine. -/
inductive Passage (m : Machine) : List Machine → Machine → Prop where
  | refl : Passage m [] m
  | load {l : List Machine} {m' : Machine} (before : Passage m l m') (lines : List String)
    (release : Setting) : Passage m l (after (Machine.createProcess lines release) m')
  | outside {l : List Machine} {m' m'' : Machine} (before : Passage m l m')
    (same : m''.inside = m'.inside) : Passage m l m''
  | step {l : List Machine} {m' : Machine} (before : Passage m l m') :
    Passage m (l ++ [m']) (after Machine.step m')

namespace Passage

variable {m m' : Machine} {l : List Machine}

theorem runSteps (before : Passage m l m') (limit : Option Int) (left taken : Nat) :
    ∃ l', Passage m (l ++ l') (after (Machine.runSteps limit left taken) m') := by
  have course := Machine.runSteps_course limit left taken m'
  unfold after
  generalize Machine.runSteps limit left taken m' = result at course ⊢
  induction course generalizing l with
  | terminated | unending => exact ⟨[], by simpa using before⟩
  | deadlocked | stopped => exact ⟨[], by rw [List.append_nil]; exact before.outside rfl⟩
  | @fault _ _ m₀ _ _ raised =>
    have stepped := before.step
    rw [after_of_error raised] at stepped
    exact ⟨[m₀], stepped⟩
  | @step _ _ m₀ _ _ _ took rest ih =>
    have stepped := before.step
    rw [after_of_ok took] at stepped
    obtain ⟨l', further⟩ := ih stepped
    exact ⟨m₀ :: l', by simpa using further⟩

/-- A run goes on by steps. -/
theorem run (before : Passage m l m') (limit : Option Int) :
    ∃ l', Passage m (l ++ l') (after (Machine.run limit) m') := by
  have started : Passage m l (m'.record (.notice (.started m'.quantum))) := before.outside rfl
  rcases Machine.after_run_cases limit m' with nothing | steps
  · rw [nothing]
    exact ⟨[], by simpa using before⟩
  · rw [steps]
    exact started.runSteps limit _ 0

end Passage

/-- A process stays pending as long as all steps begin before its release time, so the clock is less
than a quantum late when one does not, and not late at all after a tick. -/
structure Awaits (key release turn : Int) (l : List Machine) (m : Machine) : Prop where
  kept : ∃ ps s, Kept ps s m ∧ ∃ P, Program.under ps key = some P ∧ P.release = release
  quantum : m.quantum = turn
  pending : key ∈ m.scheduler.queue .pending ↔ ∀ b ∈ l, b.now < release
  soon : (∀ b ∈ l, b.now < release) → m.now < release + turn
  tick : (∀ b ∈ l, b.now < release) → ∀ c, l.getLast? = some c → c.Ticks → m.now ≤ release

namespace Awaits

variable {key release turn : Int} {l : List Machine} {m m' : Machine}

theorem of_inside (A : Awaits key release turn l m) (same : m'.inside = m.inside) :
    Awaits key release turn l m' := by
  obtain ⟨ps, s, kept, program⟩ := A.kept
  obtain ⟨s', kept', -⟩ := kept.quiet same
  have now := Machine.now_of_inside same
  refine ⟨⟨ps, s', kept', program⟩, ?_, ?_, ?_, ?_⟩
  · exact (Machine.quantum_of_inside same).trans A.quantum
  · rw [Machine.scheduler_of_inside same]
    exact A.pending
  · exact now.symm ▸ A.soon
  · exact now.symm ▸ A.tick

theorem load (A : Awaits key release turn l m) {Q : Program} (load : Load Q m m') :
    Awaits key release turn l m' := by
  obtain ⟨ps, s, kept, P, hP, released⟩ := A.kept
  obtain ⟨s', kept', -⟩ := kept.load load
  have known := kept.layout.process?_of_under hP
  obtain @⟨memory, last, s, -, loaded, arrival⟩ := load
  refine ⟨⟨_, s', kept', P, Program.under_append_of_some Q hP, released⟩, A.quantum, ?_, A.soon,
    A.tick⟩
  have old : key ≠ m.scheduler.processes.nextKey := by
    rintro rfl
    rw [Scheduler.process?_nextKey] at known
    simp at known
  show key ∈ s.queue .pending ↔ _
  rw [arrival.queue, if_pos rfl, List.mem_append, List.mem_singleton, or_iff_left old]
  exact A.pending

theorem createProcess (A : Awaits key release turn l m) (lines : List String)
    (given : Setting) : Awaits key release turn l (after (Machine.createProcess lines given) m) := by
  rcases m.after_createProcess_cases lines given with ⟨time, m₁, load, same⟩ | unchanged
  · exact (A.load load).of_inside same
  · rwa [unchanged]

/-- The process is promoted by the first step that begins at its release time or later. -/
theorem promotes_iff (A : Awaits key release turn l m) :
    m.Promotes key ↔ release ≤ m.now ∧ ∀ b ∈ l, b.now < release := by
  obtain ⟨ps, s, kept, P, hP, rfl⟩ := A.kept
  rw [kept.promotes_iff hP, and_comm]
  exact and_congr_right fun _ => A.pending

theorem step (A : Awaits key release turn l m) :
    Awaits key release turn (l ++ [m]) (after Machine.step m) := by
  obtain ⟨ps, s, kept, P, hP, rfl⟩ := A.kept
  obtain ⟨s', kept', -⟩ := kept.step
  have elapsed := kept.elapsed
  have soon := elapsed.soon
  rw [A.quantum] at soon
  obtain ⟨p, known⟩ := kept.layout.process?_of_under hP
  have release := (kept.layout.placed key P p hP known).release
  have all : (∀ b ∈ l ++ [m], b.now < P.release) ↔
      (∀ b ∈ l, b.now < P.release) ∧ m.now < P.release := by
    simp [or_imp, forall_and]
  refine ⟨⟨ps, s', kept', P, hP, rfl⟩, elapsed.quantum.trans A.quantum, ?_, ?_,
    ?_⟩
  · rw [elapsed.pending, List.mem_filter, A.pending, Scheduler.due_eq known, release, all]
    simp
  · intro early
    have before := (all.1 early).2
    omega
  · intro early c last ticks
    rw [List.getLast?_concat] at last
    cases last
    have before := (all.1 early).2
    rw [kept.now_of_ticks ticks]
    omega

end Awaits

theorem Passage.awaits {m m' : Machine} {l : List Machine} {key release turn : Int}
    (passage : Passage m l m') (start : Awaits key release turn [] m) :
    Awaits key release turn l m' := by
  induction passage with
  | refl => exact start
  | load before lines release ih => exact ih.createProcess lines release
  | outside before same ih => exact ih.of_inside same
  | step before ih => exact ih.step

/-- A process that was just made awaits its release. -/
theorem Awaits.start {ps : List Program} {m m₁ : Machine} {lines : List String} {release : Setting}
    {time key : Int} (h : Reachable ps m) (given : release.integer? = some time)
    (loaded : Machine.createProcess lines release m = .ok key m₁) (early : m.now < time) :
    Awaits key time m.quantum [] m₁ := by
  have layout := h.layout
  obtain ⟨s, kept⟩ := (h.load given (.inl ⟨key, loaded⟩)).kept
  obtain ⟨m₂, load, same⟩ := Machine.load_of_createProcess given loaded
  cases Machine.key_of_createProcess loaded
  have positive := layout.quantum_pos
  have number : m.scheduler.processes.nextKey = ps.length + 1 := by
    rw [ProcessTable.nextKey, layout.length]
  have now := Machine.now_of_inside same
  have quantum := Machine.quantum_of_inside same
  have scheduler := Machine.scheduler_of_inside same
  obtain ⟨-, -, arrival⟩ := load
  have now' : m₁.now = m.now := now
  refine ⟨⟨_, s, kept, ⟨lines, time⟩, ?_, rfl⟩, quantum, ?_, fun _ => by omega,
    fun _ c last => by cases last⟩
  · rw [number, Program.under_append_last]
  · rw [scheduler, arrival.queue, if_pos rfl]
    simp

/-- Wherever requests lead, a process whose release time lies ahead is pending and untouched. Every
step leaves those pending processes pending whose release time lies ahead, and no others. If nobody
has the processor, a step is a tick exactly if every process is terminated, blocked, or not yet
released, and else it begins a turn at once. So, however it goes on after a process was made ahead of
its release time, the process is promoted by the first step that begins at that time or later, less
than a quantum late, and not late at all if the step before was a tick. -/
theorem Reachable.released_in_time {ps : List Program} {m : Machine} (h : Reachable ps m) :
    (∀ key p, m.scheduler.process? key = some p → m.now < p.releaseTime →
      p.state = .pending ∧ p.startTime = none ∧ p.pc = p.lowerBound ∧ p.executed = 0) ∧
    (∀ key p, m.scheduler.process? key = some p → p.state = .pending →
      ∃ p', (after Machine.step m).scheduler.process? key = some p' ∧
        (p'.state = .pending ↔ m.now < p.releaseTime)) ∧
    (m.current = none →
      (m.Ticks ↔ m.Dormant) ∧ (¬m.Dormant → ∃ key, m.BeginsTurn key)) ∧
    ∀ lines release time key m₁ l m', release.integer? = some time →
      Machine.createProcess lines release m = .ok key m₁ → m.now < time → Passage m₁ l m' →
      (m'.Promotes key ↔ time ≤ m'.now ∧ ∀ b ∈ l, b.now < time) ∧
      (m'.Promotes key → m'.now ≤ time + m.quantum - 1 ∧
        ∀ b, l.getLast? = some b → b.Ticks → m'.now = time) := by
  obtain ⟨s, kept, times, -⟩ := h.timely
  refine ⟨fun key p known early => h.unreleased known early,
    fun key p known pending => kept.pending_after_step known pending, fun idle => ?_, ?_⟩
  · cases kept.seen.eq_of_idle idle
    obtain ⟨sound, settled⟩ := h.sound_of_idle idle
    exact ⟨sound.ticks_iff settled times idle, sound.beginsTurn settled times idle⟩
  intro lines release time key m₁ l m' given loaded early passage
  have awaits := passage.awaits (.start h given loaded early)
  refine ⟨awaits.promotes_iff, fun promotes => ?_⟩
  obtain ⟨released, all⟩ := awaits.promotes_iff.1 promotes
  have soon := awaits.soon all
  refine ⟨by omega, fun b last ticks => ?_⟩
  exact Int.le_antisymm (awaits.tick all b last ticks) released

/-- A process that is to be released at time one, while another has a turn of two instructions, is
promoted at time two, the last moment that the quantum allows. -/
theorem Reachable.released_in_time_late : ∃ m m' : Machine,
    Reachable [⟨["print x", "print y", "print z"], 0⟩] m ∧ m.quantum = 2 ∧ ¬m.Ticks ∧
    (m'.scheduler.process? 2).map ControlBlock.releaseTime = some 1 ∧ m'.Promotes 2 ∧ m'.now = 2 ∧
    m'.now ≤ 1 + m.quantum - 1 := by
  have made := Reachable.fresh 2 20 (by decide) (by decide)
  have first := made.after_createProcess ["print x", "print y", "print z"] 0 (by decide) (by decide)
  obtain ⟨key, loaded⟩ := first.layout.createProcess_after ["print x"]
    (show Integer.isWritable 1 by decide) (show (0 : Int) ≤ 1 by decide) (by decide)
  cases loaded.symm.trans (show _ = .ok 2 _ from rfl)
  have in_time := first.released_in_time
  have idle := in_time.2.2.1 (by decide +kernel)
  have late := in_time.2.2.2 _ _ 1 2 _ _ _ rfl loaded (by decide +kernel) (.step .refl)
  have promotes := late.1.2 ⟨by decide +kernel, by decide +kernel⟩
  refine ⟨_, _, first, by decide +kernel, ?_, by decide +kernel, promotes, by decide +kernel,
    (late.2 promotes).1⟩
  intro ticks
  have dormant := idle.1.1 ticks 1 _ (by rfl)
  revert dormant
  decide +kernel

end RoundRobin
