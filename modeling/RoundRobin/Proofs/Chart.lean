import RoundRobin.Proofs.Finality
import RoundRobin.Proofs.Standstill
import RoundRobin.Proofs.Tally

/-!
# The chart, the counters and the times

A step from an idle processor that does not end in a fault either lets a tick pass (`Pause`) or gives
the processor to a process for some ticks and takes it away again (`Tenure`). A tenure is empty only
if the program has no lines, and then the process ends at once; else it leaves its slice in the chart.
So as long as no request ends in a fault, the clock, the counters, the slices and the times of the
processes agree (`Unbroken.charted`).
-/

namespace RoundRobin

open Operation

/-! ### Slices -/

namespace Slice

def width (s : Slice) : Int := s.stop - s.start

/-- The slices of the process under a key. -/
def own (key : Int) (l : List Slice) : List Slice := l.filter fun s => s.pid = key

/-- The ticks that some slices take together. -/
def ticks (l : List Slice) : Int := (l.map width).sum

/-- The slice of a turn of so many ticks, if it is not empty. -/
def turn (key start : Int) (k : Nat) : List Slice := if 0 < k then [⟨key, start, start + k⟩] else []

variable {l : List Slice} {key start : Int} {k : Nat} {s : Slice}

theorem turn_of_pos (some_tick : 0 < k) : turn key start k = [⟨key, start, start + k⟩] :=
  if_pos some_tick

theorem eq_of_mem_turn (hs : s ∈ turn key start k) : 0 < k ∧ s = ⟨key, start, start + k⟩ := by
  unfold turn at hs
  split at hs
  · rename_i some_tick
    exact ⟨some_tick, List.mem_singleton.1 hs⟩
  · cases hs

theorem ticks_append_turn (l : List Slice) (key start : Int) (k : Nat) :
    ticks (l ++ turn key start k) = ticks l + k := by
  rw [ticks, List.map_append, List.sum_append, ticks, turn]
  split
  · rw [List.map_singleton, List.sum_singleton, width, add_sub_cancel_left]
  · rw [List.map_nil, List.sum_nil]
    omega

theorem own_append_turn_self (l : List Slice) (key start : Int) (k : Nat) :
    own key (l ++ turn key start k) = own key l ++ turn key start k := by
  rw [own, List.filter_append, own]
  congr 1
  exact List.filter_eq_self.2 fun s hs => by simp [(eq_of_mem_turn hs).2]

theorem own_append_turn_of_ne (l : List Slice) {other : Int} (ne : other ≠ key) (start : Int)
    (k : Nat) : own other (l ++ turn key start k) = own other l := by
  have nothing : (turn key start k).filter (fun s => s.pid = other) = [] :=
    List.filter_eq_nil_iff.2 fun s hs => by simp [(eq_of_mem_turn hs).2, Ne.symm ne]
  rw [own, List.filter_append, nothing, List.append_nil, own]

/-- Slices one after the other, none of them empty or longer than a quantum, up to a time. -/
structure InTurn (quantum now : Int) (l : List Slice) : Prop where
  width : ∀ s ∈ l, 1 ≤ s.width ∧ s.width ≤ quantum
  ordered : l.Pairwise fun s s' => s.stop ≤ s'.start
  past : ∀ s ∈ l, s.stop ≤ now

namespace InTurn

variable {quantum now now' : Int}

theorem later (h : InTurn quantum now l) (le : now ≤ now') : InTurn quantum now' l :=
  ⟨h.width, h.ordered, fun s hs => Int.le_trans (h.past s hs) le⟩

/-- The slice of a turn that begins now comes after all others. -/
theorem append_turn (h : InTurn quantum now l) (few : k ≤ quantum) (key : Int) :
    InTurn quantum (now + k) (l ++ turn key now k) := by
  refine ⟨fun s hs => ?_, ?_, fun s hs => ?_⟩
  · rcases List.mem_append.1 hs with old | new
    · exact h.width s old
    · obtain ⟨some_tick, rfl⟩ := eq_of_mem_turn new
      rw [Slice.width, add_sub_cancel_left]
      omega
  · refine List.pairwise_append.2 ⟨h.ordered, ?_, fun s hs s' hs' => ?_⟩
    · unfold turn
      split
      · exact List.pairwise_singleton _ _
      · exact .nil
    · rw [(eq_of_mem_turn hs').2]
      exact h.past s hs
  · rcases List.mem_append.1 hs with old | new
    · exact (h.later (by omega)).past s old
    · rw [(eq_of_mem_turn new).2]

end InTurn

end Slice

theorem Metrics.logSlice_eq (x : Metrics) (key start : Int) (k : Nat) :
    x.logSlice ⟨key, start, start + k⟩ = { x with slices := x.slices ++ Slice.turn key start k } := by
  unfold logSlice Slice.turn
  by_cases some_tick : 0 < k
  · rw [if_pos some_tick, if_pos (by simp only; omega)]
  · rw [if_neg some_tick, if_neg (by simp only; omega), List.append_nil]

/-! ### Steps without a fault -/

/-- A process that faces an instruction is that of a program with lines. -/
theorem Sound.code_ne_nil {ps : List Program} {m : Machine} {key : Int} {p : ControlBlock}
    {i : Instruction} (h : Sound ps m) (facing : Facing m key p i) : Program.code ps key ≠ [] := by
  intro blank
  refine Punctual.ahead_ne_nil h facing ?_
  rw [h.position_eq facing.known, Program.ahead, blank, List.drop_nil]

/-- A process that is at its end when it takes the processor is that of a program without lines. -/
theorem Dispatch.code_eq_nil {ps : List Program} {m m₁ m₂ : Machine} {key : Int} {p : ControlBlock}
    (d : Dispatch key p m m₁) (h : Sound ps m) (punctual : Punctual ps m.scheduler)
    (same : m₂.inside = m₁.inside) (at_end : m₂.AtEnd key) : Program.code ps key = [] := by
  obtain ⟨known, stands⟩ := d.stands h
  obtain ⟨q, hq, nothing⟩ := at_end
  have next := ((h.dispatch d).of_inside same).head?_ahead hq
  rw [Machine.scheduler_of_inside same] at hq
  cases d.process?_self.symm.trans hq
  rw [nothing] at next
  have state : p.state = .ready := ControlBlock.state_of_station? stands
  exact (punctual key p known).waiting (by rw [state]; decide) (by rw [state]; decide)
    (List.head?_eq_none_iff.1 next)

/-- A tick passes in which nothing is executed. -/
structure Pause (m m' : Machine) : Prop where
  now : m'.now = m.now + 1
  quantum : m'.quantum = m.quantum
  metrics : m'.metrics = m.metrics.countIdle
  bodies : ∀ key, m'.scheduler.body? key = m.scheduler.body? key
  terminated : m'.scheduler.queue .terminated = m.scheduler.queue .terminated

/-- The process under a key takes the processor, executes for some ticks, and leaves the processor
again. -/
structure Tenure (ps : List Program) (key : Int) (k : Nat) (p p' : ControlBlock) (m m' : Machine) :
    Prop where
  now : m'.now = m.now + k
  quantum : m'.quantum = m.quantum
  few : k ≤ m.quantum
  empty : k = 0 ↔ Program.code ps key = []
  metrics : m'.metrics =
    { activeTicks := m.metrics.activeTicks + k
      totalTicks := m.metrics.totalTicks + k
      contextSwitches := m.metrics.contextSwitches + 1
      completed := m'.metrics.completed
      slices := m.metrics.slices ++ Slice.turn key m.now k }
  waited : key ∉ m.scheduler.queue .terminated
  known : m.scheduler.process? key = some p
  known' : m'.scheduler.process? key = some p'
  executed : p'.executed = p.executed + k
  started : p'.startTime = some (p.startTime.getD m.now)
  leaves : 0 < k ∧ m'.scheduler.queue .terminated = m.scheduler.queue .terminated ∨
    m'.scheduler.queue .terminated = m.scheduler.queue .terminated ++ [key] ∧
      p'.endTime = some m'.now
  others : ∀ other, other ≠ key → m'.scheduler.body? other = m.scheduler.body? other

namespace Tenure

variable {ps : List Program} {m m₁ m₂ m' : Machine} {key : Int} {k : Nat} {p p' : ControlBlock}

theorem active (t : Tenure ps key k p p' m m') :
    m'.metrics.activeTicks = m.metrics.activeTicks + k := by
  rw [t.metrics]

theorem switches (t : Tenure ps key k p p' m m') :
    m'.metrics.contextSwitches = m.metrics.contextSwitches + 1 := by
  rw [t.metrics]

theorem slices (t : Tenure ps key k p p' m m') :
    m'.metrics.slices = m.metrics.slices ++ Slice.turn key m.now k := by
  rw [t.metrics]

theorem terminated_of_ne (t : Tenure ps key k p p' m m') {other : Int}
    (ne : other ≠ key) (gone : other ∈ m'.scheduler.queue .terminated) :
    other ∈ m.scheduler.queue .terminated := by
  rcases t.leaves with ⟨-, stays⟩ | ⟨ends, -⟩
  · exact stays ▸ gone
  · rw [ends, List.mem_append, List.mem_singleton] at gone
    exact gone.resolve_right ne

/-- A process whose program has lines leaves a slice, and any other ends without one. -/
theorem length_slices (t : Tenure ps key k p p' m m') :
    m'.metrics.slices.length
      + m'.scheduler.terminated.countP (fun key => (Program.code ps key).isEmpty)
      = m.metrics.slices.length
        + m.scheduler.terminated.countP (fun key => (Program.code ps key).isEmpty) + 1 := by
  have empty := t.empty
  rw [← List.isEmpty_iff] at empty
  rw [t.slices, List.length_append]
  rcases t.leaves with ⟨some_tick, stays⟩ | ⟨ends, -⟩
  · have same : m'.scheduler.terminated = m.scheduler.terminated := stays
    rw [same, Slice.turn_of_pos some_tick, List.length_singleton]
    omega
  · have same : m'.scheduler.terminated = m.scheduler.terminated ++ [key] := ends
    rw [same, List.countP_append, List.countP_singleton]
    by_cases none : k = 0
    · rw [if_pos (empty.1 none), none]
      rfl
    · rw [if_neg (mt empty.2 none), Slice.turn_of_pos (Nat.pos_of_ne_zero none),
        List.length_singleton]
      omega

/-- A process that is given the processor, has a turn and leaves it has a tenure. -/
theorem of_turn (h : Sound ps m) (punctual : Punctual ps m.scheduler)
    (dispatch : Dispatch key p m m₁) (same : m₂.inside = m₁.inside) (turn : Turn key m₂ m') :
    ∃ k p', Tenure ps key k p p' m m' := by
  obtain ⟨known, stands⟩ := dispatch.stands h
  have h₂ : Sound ps m₂ := (h.dispatch dispatch).of_inside same
  have runs₂ : m₂.Runs key := dispatch.runs.of_inside same
  have known₂ := dispatch.process?_self
  rw [← Machine.scheduler_of_inside same] at known₂
  obtain @⟨m₃, m₄, _, stretch, departure, same'⟩ := turn
  obtain ⟨k, le, spell, short, long⟩ := stretch.spell h₂
  obtain ⟨p₃, known₃, executed, -, started, -⟩ := spell.own _ known₂
  obtain ⟨q, p', hq, known', executed', started', leaves⟩ := departure.leaves
  cases known₃.symm.trans hq
  have now₂ : m₂.now = m.now := (Machine.now_of_inside same).trans dispatch.now
  have now' : m'.now = m₃.now := (Machine.now_of_inside same').trans departure.now
  have quantum₂ : m₂.quantum = m.quantum := (Machine.quantum_of_inside same).trans dispatch.quantum
  have positive := h₂.layout.quantum_pos
  have empty : k = 0 ↔ Program.code ps key = [] := by
    constructor
    · intro none
      exact dispatch.code_eq_nil h punctual same ((short none).resolve_left (by omega)).1
    · intro blank
      by_contra some_tick
      obtain ⟨q, i, facing⟩ := long (Nat.pos_of_ne_zero some_tick)
      exact h₂.code_ne_nil facing blank
  have metrics := departure.metrics
  rw [spell.now, Metrics.logSlice_eq, spell.metrics, Machine.metrics_of_inside same,
    dispatch.metrics, now₂, ← Machine.metrics_of_inside same'] at metrics
  refine ⟨k, p', ?_, ?_, by omega, empty, metrics, ?_, known, ?_, executed'.trans executed,
    started'.trans started, ?_, fun other ne => ?_⟩
  · rw [now', spell.now, now₂]
  · rw [Machine.quantum_of_inside same', departure.quantum, spell.quantum, quantum₂]
  · exact h.orderly.not_mem_queue known stands (by decide)
  · rwa [Machine.scheduler_of_inside same']
  · have terminated : m₃.scheduler.queue .terminated = m.scheduler.queue .terminated := by
      rw [spell.terminated, Machine.scheduler_of_inside same, dispatch.queue _ (by decide) (by decide)]
    rw [Machine.scheduler_of_inside same', ← terminated, now']
    refine leaves.imp_left fun stays => ⟨Nat.pos_of_ne_zero fun none => ?_, stays⟩
    -- with nothing left to do the process would have ended
    obtain ⟨at_end, still⟩ := (short none).resolve_left (by omega)
    have ends := departure.terminated_of_atEnd (runs₂.of_inside still) (at_end.of_inside still)
    rw [stays] at ends
    exact absurd ends.symm (by simp)
  · rw [Machine.scheduler_of_inside same', departure.body?_of_ne ne, spell.others other ne,
      Machine.scheduler_of_inside same, dispatch.body?_of_ne ne]

/-- It does not matter that others were promoted before. -/
theorem of_promotion (promotion : Promotion m m₁)
    (t : Tenure ps key k p p' m₁ m') : ∃ p, Tenure ps key k p p' m m' := by
  obtain ⟨p₀, known, body⟩ := Scheduler.process?_of_body? (promotion.body? key) t.known
  have executed := ControlBlock.executed_of_body body
  have start := ControlBlock.startTime_of_body body
  have terminated := promotion.unmoved .terminated (by decide) (by decide)
  refine ⟨p₀, t.now.trans (by rw [promotion.now]), t.quantum.trans promotion.quantum,
    promotion.quantum ▸ t.few, t.empty, ?_, terminated ▸ t.waited, known, t.known',
    executed ▸ t.executed, ?_, terminated ▸ t.leaves, fun other ne => ?_⟩
  · rw [← promotion.metrics, ← promotion.now]
    exact t.metrics
  · rw [← start, ← promotion.now]
    exact t.started
  · exact (t.others other ne).trans (promotion.body? other)

end Tenure

/-- What a step from an idle processor does if it does not end in a fault. -/
theorem Sound.pause_or_tenure {ps : List Program} {m m' : Machine} {ran : Bool} (h : Sound ps m)
    (punctual : Punctual ps m.scheduler) (idle : m.current = none)
    (took : Machine.step m = .ok ran m') :
    Pause m m' ∨ ∃ key k p p', Tenure ps key k p p' m m' := by
  have step := h.step_result (.of_idle idle)
  rw [took] at step
  cases step with
  | idle promotion idle nobody same =>
    refine .inl ⟨?_, ?_, ?_, fun key => ?_, ?_⟩
    · exact (Machine.now_of_inside same).trans (congrArg (· + 1) promotion.now)
    · exact (Machine.quantum_of_inside same).trans promotion.quantum
    · exact (Machine.metrics_of_inside same).trans (congrArg Metrics.countIdle promotion.metrics)
    · rw [Machine.scheduler_of_inside same]
      exact promotion.body? key
    · rw [Machine.scheduler_of_inside same]
      exact promotion.unmoved .terminated (by decide) (by decide)
  | turn promotion occupied turn =>
    cases occupied with
    | busy current =>
      rw [promotion.current, idle] at current
      cases current
    | dispatched dispatch same =>
      have punctual₁ := punctual.moves h promotion.works.moves
      obtain ⟨k, p', tenure⟩ := Tenure.of_turn (h.works promotion.works) punctual₁ dispatch same turn
      obtain ⟨p, tenure'⟩ := tenure.of_promotion promotion
      exact .inr ⟨_, k, p, p', tenure'⟩

/-! ### The chart -/

/-- The counts and times of a process are those of its slices. -/
structure Traced (ps : List Program) (m : Machine) (key : Int) (p : ControlBlock) : Prop where
  executed : p.executed = Slice.ticks (Slice.own key m.metrics.slices)
  start : Program.code ps key ≠ [] →
    p.startTime = (Slice.own key m.metrics.slices).head?.map Slice.start
  stop : Program.code ps key ≠ [] → key ∈ m.scheduler.terminated →
    ∃ s, (Slice.own key m.metrics.slices).getLast? = some s ∧ p.endTime = some s.stop

/-- The clock, the counters, the slices and the processes agree. -/
structure Charted (ps : List Program) (m : Machine) : Prop where
  total : m.metrics.totalTicks = m.now
  active : m.metrics.activeTicks = (m.scheduler.processes.map ControlBlock.executed).sum
  drawn : m.metrics.activeTicks = Slice.ticks m.metrics.slices
  inTurn : Slice.InTurn m.quantum m.now m.metrics.slices
  known : ∀ s ∈ m.metrics.slices, (m.scheduler.process? s.pid).isSome
  /-- A process without lines is given the processor once, and leaves no slice. -/
  switches : m.metrics.contextSwitches = m.metrics.slices.length
    + m.scheduler.terminated.countP fun key => (Program.code ps key).isEmpty
  processes : ∀ key p, m.scheduler.process? key = some p → Traced ps m key p

/-- A process to which nothing happened is still that of its slices. -/
theorem Traced.of_body {ps qs : List Program} {m m' : Machine} {key : Int} {p p' : ControlBlock}
    (h : Traced ps m key p) (body : p'.body = p.body)
    (code : Program.code qs key = Program.code ps key)
    (own : Slice.own key m'.metrics.slices = Slice.own key m.metrics.slices)
    (terminated : key ∈ m'.scheduler.terminated → key ∈ m.scheduler.terminated) :
    Traced qs m' key p' := by
  have executed := ControlBlock.executed_of_body body
  have start := ControlBlock.startTime_of_body body
  have stop := ControlBlock.endTime_of_body body
  refine ⟨?_, ?_, ?_⟩
  · rw [executed, own]
    exact h.executed
  · rw [code, start, own]
    exact h.start
  · rw [code, stop, own]
    exact fun lines gone => h.stop lines (terminated gone)

/-- What a process has been doing goes on in its tenure. -/
theorem Traced.tenure {ps : List Program} {m m' : Machine} {key : Int} {k : Nat}
    {p p' : ControlBlock} (own : Traced ps m key p) (t : Tenure ps key k p p' m m') :
    Traced ps m' key p' := by
  have some_tick : Program.code ps key ≠ [] → 0 < k := fun lines =>
    Nat.pos_of_ne_zero (mt t.empty.1 lines)
  refine ⟨?_, fun lines => ?_, fun lines gone => ?_⟩
  · rw [t.executed, own.executed, t.slices, Slice.own_append_turn_self, Slice.ticks_append_turn]
  · rw [t.started, own.start lines, t.slices, Slice.own_append_turn_self,
      Slice.turn_of_pos (some_tick lines)]
    cases Slice.own key m.metrics.slices <;> rfl
  · rw [t.slices, Slice.own_append_turn_self, Slice.turn_of_pos (some_tick lines)]
    refine ⟨_, List.getLast?_concat, ?_⟩
    rcases t.leaves with ⟨-, stays⟩ | ⟨-, ended⟩
    · exact absurd (stays ▸ gone) t.waited
    · rw [ended, t.now]

namespace Charted

variable {ps : List Program} {m m' : Machine} {key : Int} {k : Nat} {p p' : ControlBlock}

theorem create (empty : m.scheduler = {}) (clock : m.clock = {}) (metrics : m.metrics = {}) :
    Charted [] m := by
  have nothing : m.metrics.slices = [] := by rw [metrics]
  refine ⟨?_, ?_, ?_, ?_, ?_, ?_, fun key p known => ?_⟩
  · rw [metrics, Machine.now, clock]
  · exact Machine.Tallied.create empty metrics
  · rw [metrics]
    rfl
  · rw [nothing]
    exact ⟨fun s hs => absurd hs List.not_mem_nil, .nil, fun s hs => absurd hs List.not_mem_nil⟩
  · rw [nothing]
    exact fun s hs => absurd hs List.not_mem_nil
  · rw [metrics, empty]
    rfl
  · rw [empty, Scheduler.process?_empty] at known
    cases known

/-- Nothing is drawn as long as nothing but idle ticks is counted. -/
theorem of_same (C : Charted ps m) (h : Sound ps m) (h' : Sound ps m') (quantum : m'.quantum = m.quantum)
    (later : m.now ≤ m'.now) (metrics : m'.metrics = { m.metrics with totalTicks := m'.now })
    (bodies : ∀ key, m'.scheduler.body? key = m.scheduler.body? key)
    (terminated : m'.scheduler.terminated = m.scheduler.terminated) : Charted ps m' := by
  have length := h'.layout.length.trans h.layout.length.symm
  have slices : m'.metrics.slices = m.metrics.slices := by rw [metrics]
  refine ⟨by rw [metrics], ?_, ?_, ?_, fun s hs => ?_, ?_, fun key p' known => ?_⟩
  · exact Machine.Tallied.of_same C.active h h' (by rw [metrics]) fun key =>
      Scheduler.map_process?_of_body? (fun _ => rfl) (bodies key)
  · rw [metrics]
    exact C.drawn
  · rw [slices, quantum]
    exact C.inTurn.later later
  · have known := C.known s (slices ▸ hs)
    rwa [Scheduler.process?_isSome_iff, length, ← Scheduler.process?_isSome_iff]
  · rw [slices, terminated, metrics]
    exact C.switches
  · obtain ⟨p, known, body⟩ := Scheduler.process?_of_body? (bodies key) known
    exact (C.processes key p known).of_body body rfl (by rw [slices]) (terminated ▸ id)

theorem of_inside (C : Charted ps m) (h : Sound ps m) (same : m'.inside = m.inside) :
    Charted ps m' := by
  have scheduler := Machine.scheduler_of_inside same
  have now := Machine.now_of_inside same
  refine C.of_same h (h.of_inside same) (Machine.quantum_of_inside same) (Int.le_of_eq now.symm) ?_
    (fun _ => by rw [scheduler]) (by rw [scheduler])
  rw [Machine.metrics_of_inside same, now, ← C.total]

theorem pause (C : Charted ps m) (h : Sound ps m) (h' : Sound ps m') (pause : Pause m m') :
    Charted ps m' := by
  have now := pause.now
  refine C.of_same h h' pause.quantum (by omega) ?_ pause.bodies pause.terminated
  rw [pause.metrics, now, ← C.total]
  rfl

/-- A tenure draws its slice. -/
theorem tenure (C : Charted ps m) (h : Sound ps m) (h' : Sound ps m')
    (t : Tenure ps key k p p' m m') : Charted ps m' := by
  have length := h'.layout.length.trans h.layout.length.symm
  refine ⟨?_, ?_, ?_, ?_, fun s hs => ?_, ?_, fun other q known => ?_⟩
  · rw [t.metrics, t.now, ← C.total]
  · exact Machine.Tallied.of_own C.active h h' t.active t.known t.known' t.executed t.others
  · rw [t.slices, Slice.ticks_append_turn, ← C.drawn, t.active]
  · rw [t.slices, t.quantum, t.now]
    exact C.inTurn.append_turn t.few key
  · rw [Scheduler.process?_isSome_iff, length, ← Scheduler.process?_isSome_iff]
    rcases List.mem_append.1 (t.slices ▸ hs) with old | new
    · exact C.known s old
    · rw [(Slice.eq_of_mem_turn new).2, t.known]
      rfl
  · have switches := C.switches
    have length := t.length_slices
    rw [t.switches]
    omega
  · by_cases same : other = key
    · subst same
      cases t.known'.symm.trans known
      exact (C.processes other p t.known).tenure t
    · obtain ⟨q₀, known₀, body⟩ := Scheduler.process?_of_body? (t.others other same) known
      refine (C.processes other q₀ known₀).of_body body rfl ?_ (t.terminated_of_ne same)
      rw [t.slices, Slice.own_append_turn_of_ne _ same]

theorem step (C : Charted ps m) (h : Sound ps m) (punctual : Punctual ps m.scheduler)
    (idle : m.current = none) {ran : Bool} (took : Machine.step m = .ok ran m') : Charted ps m' := by
  have moves := (h.after_step (.of_idle idle)).1
  rw [after_of_ok took] at moves
  rcases h.pause_or_tenure punctual idle took with pause | ⟨key, k, p, p', tenure⟩
  · exact C.pause h (h.moves moves) pause
  · exact C.tenure h (h.moves moves) tenure

/-- A run from an idle processor that does not end in a fault keeps the chart. -/
theorem runSteps (C : Charted ps m) (h : Sound ps m) (punctual : Punctual ps m.scheduler)
    (idle : m.current = none) {limit : Option Int} {left taken : Nat}
    (ended : Machine.runSteps limit left taken m = .ok () m') : Charted ps m' := by
  have course := Machine.runSteps_course limit left taken m
  rw [ended] at course
  clear ended
  generalize result : EStateM.Result.ok () m' = outcome at course
  induction course with
  | terminated all =>
    cases result
    exact C
  | deadlocked | stopped =>
    cases result
    exact C.of_inside h rfl
  | unending | fault => cases result
  | step took rest ih =>
    have moves := (h.after_step (.of_idle idle)).1
    rw [after_of_ok took] at moves
    exact ih (C.step h punctual idle took) (h.moves moves) (punctual.moves h moves)
      (h.idle_of_step (.of_idle idle) took) result

theorem load (C : Charted ps m) (h : Sound ps m) {P : Program} (load : Load P m m') :
    Charted (ps ++ [P]) m' := by
  have tallied := Machine.Tallied.load C.active load
  obtain @⟨memory, last, s, released, loaded, arrival⟩ := load
  have terminated : s.terminated = m.scheduler.terminated :=
    (arrival.queue .terminated).trans (if_neg (by decide))
  have code : ∀ key p, m.scheduler.process? key = some p →
      Program.code (ps ++ [P]) key = Program.code ps key := by
    intro key p known
    obtain ⟨Q, hQ, -⟩ := h.layout.lookup known
    exact Program.code_append P hQ
  refine ⟨C.total, tallied, C.drawn, C.inTurn, fun s hs => ?_, ?_, fun key q hq => ?_⟩
  · obtain ⟨q, hq⟩ := Option.isSome_iff_exists.1 (C.known s hs)
    exact Option.isSome_iff_exists.2 ⟨q, arrival.process?_of_some hq⟩
  · show m.metrics.contextSwitches = m.metrics.slices.length + s.terminated.countP _
    rw [C.switches, terminated]
    refine congrArg (fun n : Nat => (_ + n : Int)) (List.countP_congr fun key gone => ?_)
    have ended : key ∈ m.scheduler.queue .terminated := gone
    obtain ⟨q, hq, -⟩ := h.orderly.process?_of_mem ended
    rw [code key q hq]
  · rw [arrival.process?] at hq
    split at hq
    · rename_i new
      cases hq
      -- nobody went by the number of the new process before
      have undrawn : Slice.own key m.metrics.slices = [] := by
        refine List.filter_eq_nil_iff.2 fun s hs same => ?_
        have known := C.known s hs
        rw [of_decide_eq_true same, new, Scheduler.process?_nextKey] at known
        cases known
      refine ⟨?_, fun _ => ?_, fun _ gone => ?_⟩
      · rw [undrawn]
        rfl
      · rw [undrawn]
        rfl
      · have ended : key ∈ s.terminated := gone
        rw [terminated] at ended
        have before : key ∈ m.scheduler.queue .terminated := ended
        obtain ⟨q, known, -⟩ := h.orderly.process?_of_mem before
        rw [new, Scheduler.process?_nextKey] at known
        cases known
    · exact (C.processes key q hq).of_body rfl (code key q hq) rfl (terminated ▸ id)

end Charted

/-- As long as no request ends in a fault, the clock, the counters, the slices and the times of the
processes agree. -/
theorem Unbroken.charted {ps : List Program} {m : Machine} (h : Unbroken ps m) : Charted ps m := by
  have both := Unbroken.invariant (Q := fun ps m => Sound ps m ∧ Charted ps m) ?_ ?_ ?_ ?_ h
  · exact both.2.2
  · exact fun ps m m' ⟨sound, charted⟩ same => ⟨sound.of_inside same, charted.of_inside sound same⟩
  · intro ps ran m m' reachable idle ⟨sound, charted⟩ took
    have sound' := sound.moves (sound.after_step (.of_idle idle)).1
    rw [after_of_ok took] at sound'
    exact ⟨sound', charted.step sound (Passed.reached reachable).punctual idle took⟩
  · exact fun m sound empty clock metrics => ⟨sound, .create empty clock metrics⟩
  · exact fun ps P m m' sound ⟨_, charted⟩ load => ⟨sound.load load, charted.load sound load⟩

/-- Two processes contend for a resource, a third has no lines and leaves no slice, and a fourth is
released after a tick in which nobody can run. -/
theorem Unbroken.charted_contending : ∃ m,
    Unbroken [⟨["semWait file", "print x", "semSignal file"], 0⟩,
      ⟨["semWait file", "semSignal file"], 0⟩, ⟨[], 0⟩, ⟨["print x"], 7⟩] m ∧
    m.metrics.slices = [⟨1, 0, 2⟩, ⟨2, 2, 3⟩, ⟨1, 3, 4⟩, ⟨2, 4, 6⟩, ⟨4, 7, 8⟩] ∧
    m.metrics.contextSwitches = 6 ∧ m.metrics.activeTicks = 7 ∧ m.now = 8 ∧
    Charted [⟨["semWait file", "print x", "semSignal file"], 0⟩,
      ⟨["semWait file", "semSignal file"], 0⟩, ⟨[], 0⟩, ⟨["print x"], 7⟩] m := by
  have made := Unbroken.fresh 2 20 (by decide) (by decide)
  have first := made.after_createProcess ["semWait file", "print x", "semSignal file"] 0
    (by decide) (by decide) (by decide)
  have second := first.after_createProcess ["semWait file", "semSignal file"] 0
    (by decide) (by decide) (by decide)
  have third := second.after_createProcess [] 0 (by decide) (by decide) (by decide +kernel)
  have fourth := third.after_createProcess ["print x"] 7 (by decide) (by decide)
    (by decide +kernel)
  have held := (fourth.after_step (by decide +kernel)).after_step (by decide +kernel)
  have empty := held.after_step (by decide +kernel)
  have woken := (empty.after_step (by decide +kernel)).after_step (by decide +kernel)
  have late := (woken.after_step (by decide +kernel)).after_step (by decide +kernel)
  exact ⟨_, late, by decide +kernel, by decide +kernel, by decide +kernel, by decide +kernel,
    late.charted⟩

end RoundRobin
