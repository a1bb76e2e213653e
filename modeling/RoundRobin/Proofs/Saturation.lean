import RoundRobin.Proofs.Ample
import RoundRobin.Proofs.Uncut

/-!
# Quanta that make no difference

Two machines that differ in the quantum do the same for all requests if no program is longer than
either quantum (`Machine.same_of_long_quantum`). What they do shows nothing of the quantum but for the
turns, so it is seen behind a veil (`Veil.quanta`). A turn that is long enough is as long as any other
that is, so what the veil hides of the turns stays the same as well (`Abreast`). Each operation goes
`InStep` on machines with the same programs (`Coupled`), and what is put together from such operations
does so too.
-/

namespace RoundRobin

open Operation

/-! ### What differs with the quantum -/

/-- Whether an event is the notice at the beginning of a run, which names the quantum. -/
def Event.isStart : Event → Bool
  | .notice (.started _) => true
  | _ => false

/-- A veil over that notice and over how time is cut into turns. -/
def Veil.quanta : Veil := { hides := Event.isStart, turns := true }

/-- How time was cut into turns so far. -/
def Metrics.turns (x : Metrics) : Int × List Slice := (x.contextSwitches, x.slices)

/-- A machine apart from its quantum, which is also that of its processes and is named at the beginning
of every run. -/
def Machine.unquantized (m : Machine) : Machine :=
  { m with
    quantum := 0
    scheduler := { m.scheduler with
      processes := m.scheduler.processes.map fun p => { p with quantum := 0 } }
    log := (m.log.toList.filter fun e => !e.isStart).toArray }

/-- Two machines look the same behind the veil, and time was cut into the same turns. -/
structure Abreast (m m' : Machine) : Prop where
  shown : m.veiled .quanta = m'.veiled .quanta
  turns : m.metrics.turns = m'.metrics.turns

namespace Abreast

variable {m m' : Machine}

theorem unquantized (h : Abreast m m') : m.unquantized = m'.unquantized := by
  have metrics : m.metrics = m'.metrics := by
    have others := congrArg Machine.metrics h.shown
    obtain ⟨switches, slices⟩ := Prod.mk.inj h.turns
    have back : ∀ x : Metrics, x = { x.veiled .quanta with
        contextSwitches := x.contextSwitches, slices := x.slices } := fun _ => rfl
    rw [back m.metrics, back m'.metrics, switches, slices]
    exact congrArg (fun x : Metrics => { x with
      contextSwitches := m'.metrics.contextSwitches, slices := m'.metrics.slices }) others
  have uncovered : ∀ m : Machine, m.unquantized = { m.veiled .quanta with metrics := m.metrics } :=
    fun _ => rfl
  rw [uncovered m, uncovered m', metrics, h.shown]

theorem now (h : Abreast m m') : m.now = m'.now := (congrArg Machine.now h.shown :)

theorem current (h : Abreast m m') : m.current = m'.current := (congrArg Machine.current h.shown :)

theorem queue (h : Abreast m m') (st : Station) : m.scheduler.queue st = m'.scheduler.queue st :=
  (congrArg (fun m : Machine => m.scheduler.queue st) h.shown :)

theorem record (h : Abreast m m') (e : Event) : Abreast (m.record e) (m'.record e) :=
  ⟨Veil.Alike.record h.shown e, h.turns⟩

end Abreast

/-! ### In step -/

namespace Operation

variable {α β : Type} {x y : Operation α} {m m' : Machine}

/-- From two machines, two operations give the same or end in the same fault, and what they leave
behind is abreast. -/
structure InStep (x y : Operation α) (m m' : Machine) : Prop where
  shown : veil .quanta (x m) = veil .quanta (y m')
  turns : (after x m).metrics.turns = (after y m').metrics.turns

namespace InStep

theorem ok (h : InStep x y m m') {a : α} {m₁ : Machine} (result : x m = .ok a m₁) :
    ∃ m₁', y m' = .ok a m₁' ∧ Abreast m₁ m₁' := by
  obtain ⟨shown, turns⟩ := h
  rw [result] at shown
  obtain ⟨m₁', result', same⟩ := eq_ok_of_veil shown.symm
  rw [after_of_ok result, after_of_ok result'] at turns
  exact ⟨m₁', result', same.symm, turns⟩

theorem error (h : InStep x y m m') {fault : Fault} {m₁ : Machine} (result : x m = .error fault m₁) :
    ∃ m₁', y m' = .error fault m₁' ∧ Abreast m₁ m₁' := by
  obtain ⟨shown, turns⟩ := h
  rw [result] at shown
  obtain ⟨m₁', result', same⟩ := eq_error_of_veil shown.symm
  rw [after_of_error result, after_of_error result'] at turns
  exact ⟨m₁', result', same.symm, turns⟩

theorem outcome_abreast (h : InStep x y m m') :
    outcome x m = outcome y m' ∧ Abreast (after x m) (after y m') := by
  unfold outcome after
  cases result : x m with
  | ok a m₁ =>
    obtain ⟨m₁', result', abreast⟩ := h.ok result
    rw [result']
    exact ⟨rfl, abreast⟩
  | error fault m₁ =>
    obtain ⟨m₁', result', abreast⟩ := h.error result
    rw [result']
    exact ⟨rfl, abreast⟩

theorem abreast (h : InStep x y m m') : Abreast (after x m) (after y m') := h.outcome_abreast.2

theorem congr {x₁ y₁ : Operation α} {m₁ m₁' : Machine} (h : InStep x₁ y₁ m₁ m₁') (left : x m = x₁ m₁)
    (right : y m' = y₁ m₁') : InStep x y m m' := by
  obtain ⟨shown, turns⟩ := h
  unfold after at turns
  rw [← left, ← right] at shown turns
  exact ⟨shown, turns⟩

theorem of_ok (h : Abreast m m') {a : α} {m₀ m₀' : Machine} (left : x m₀ = .ok a m)
    (right : y m₀' = .ok a m') : InStep x y m₀ m₀' := by
  constructor
  · rw [left, right]
    exact congrArg (EStateM.Result.ok a) h.shown
  · rw [after_of_ok left, after_of_ok right]
    exact h.turns

theorem of_error (h : Abreast m m') {fault : Fault} {m₀ m₀' : Machine} (left : x m₀ = .error fault m)
    (right : y m₀' = .error fault m') : InStep x y m₀ m₀' := by
  constructor
  · rw [left, right]
    exact congrArg (EStateM.Result.error fault) h.shown
  · rw [after_of_error left, after_of_error right]
    exact h.turns

/-- A blind operation goes in step, apart from the turns. -/
theorem of_blind (blind : Blind .quanta x) (h : Abreast m m')
    (turns : (after x m).metrics.turns = (after x m').metrics.turns) : InStep x x m m' :=
  ⟨blind.congr h.shown, turns⟩

theorem bind {f g : α → Operation β} (first : InStep x y m m')
    (rest : ∀ a m₁ m₁', x m = .ok a m₁ → y m' = .ok a m₁' → Abreast m₁ m₁' →
      InStep (f a) (g a) m₁ m₁') : InStep (x >>= f) (y >>= g) m m' := by
  cases result : x m with
  | ok a m₁ =>
    obtain ⟨m₁', result', abreast⟩ := first.ok result
    refine (rest a m₁ m₁' result result' abreast).congr ?_ ?_
    · rw [bind_apply, result]
    · rw [bind_apply, result']
  | error fault m₁ =>
    obtain ⟨m₁', result', abreast⟩ := first.error result
    have left : (x >>= f) m = .error fault m₁ := by rw [bind_apply, result]
    have right : (y >>= g) m' = .error fault m₁' := by rw [bind_apply, result']
    exact .of_error abreast left right

end InStep

end Operation

/-- What comes after the checks of a run: a step and the rest, if one more may be taken. -/
def Machine.goOn (limit : Option Int) : Nat → Nat → Operation Unit
  | 0, _ => throw .unending
  | left + 1, taken => do
    let _ ← step
    runSteps limit left (taken + 1)

/-- A run is over in one machine if it is over in the other, and else both go on. -/
theorem Abreast.runSteps {m m' : Machine} (h : Abreast m m') {limit : Option Int} {left taken : Nat}
    (rest : InStep (Machine.goOn limit left taken) (Machine.goOn limit left taken) m m') :
    InStep (Machine.runSteps limit left taken) (Machine.runSteps limit left taken) m m' := by
  have terminated : m.allTerminated = m'.allTerminated :=
    Veil.quanta.likeness.same _ Machine.allTerminated_bare h.shown
  have deadlocked : m.isDeadlocked = m'.isDeadlocked := (congrArg Machine.isDeadlocked h.shown :)
  have waiters : m.scheduler.waiters = m'.scheduler.waiters :=
    (congrArg (fun m : Machine => m.scheduler.waiters) h.shown :)
  have left_eq := Machine.runSteps_eq limit left taken m
  have right_eq := Machine.runSteps_eq limit left taken m'
  rw [← terminated, ← deadlocked, ← waiters, ← h.now] at right_eq
  by_cases all : m.allTerminated
  · rw [if_pos all] at left_eq right_eq
    exact .of_ok h left_eq right_eq
  · rw [if_neg all] at left_eq right_eq
    by_cases stuck : m.isDeadlocked
    · rw [if_pos stuck] at left_eq right_eq
      exact .of_ok (h.record _) left_eq right_eq
    · rw [if_neg stuck] at left_eq right_eq
      by_cases reached : limit.any (· ≤ (taken : Int))
      · rw [if_pos reached] at left_eq right_eq
        exact .of_ok (h.record _) left_eq right_eq
      · rw [if_neg reached] at left_eq right_eq
        refine rest.congr (left_eq.trans ?_) (right_eq.trans ?_)
        · cases left <;> rfl
        · cases left <;> rfl

/-! ### The turns that are counted -/

theorem Metrics.turns_logSlice {x y : Metrics} (same : x.turns = y.turns) (s : Slice) :
    (x.logSlice s).turns = (y.logSlice s).turns := by
  obtain ⟨switches, slices⟩ := Prod.mk.inj same
  unfold logSlice
  split
  · exact congrArg₂ Prod.mk switches (congrArg (· ++ [s]) slices)
  · exact same

namespace Machine

/-- The end of a turn that began at a given time. -/
def endTurn (key start : Int) : Operation Int := do
  let stop := (← get).now
  measure fun x => x.logSlice ⟨key, start, stop⟩
  leave key
  return key

theorem blind_endTurn (v : Veil) (key start : Int) : Blind v (endTurn key start) :=
  v.likeness.look (fun _ => .bind (v.likeness.measure (.logSlice _)) fun _ =>
    .bind (v.likeness.leave key) fun _ => .pure key) fun _ => rfl

end Machine

namespace Sound

variable {ps : List Program} {m : Machine} {key : Int}

theorem turns_promote (h : Sound ps m) :
    (after Machine.promote m).metrics.turns = m.metrics.turns := by
  obtain ⟨m', promoted, promotion⟩ := h.promote_works
  rw [after_of_ok promoted, promotion.metrics]

/-- A switch is counted if the processor is given away. -/
theorem turns_occupy (h : Sound ps m) : (after Machine.occupy m).metrics.turns
    = (m.metrics.contextSwitches
        + if m.current = none ∧ m.scheduler.queue .ready ≠ [] then 1 else 0, m.metrics.slices) := by
  rcases h.occupy_cases with ⟨key, m', occupied, given⟩ | ⟨occupied, -, nobody⟩
  · have waits : m.current = none → m.scheduler.queue .ready ≠ [] := by
      intro idle nobody
      cases given with
      | busy current => cases idle.symm.trans current
      | dispatched dispatch =>
        obtain ⟨-, front, -, -⟩ := dispatch
        cases nobody.symm.trans front
    rw [after_of_ok occupied, given.metrics]
    simp only [and_iff_left_of_imp waits]
    rfl
  · rw [after_of_ok occupied, if_neg (by simp [nobody]), Int.add_zero]
    rfl

theorem turns_runInstructions (h : Sound ps m) (runs : m.Runs key) (n : Nat) :
    (after (Machine.runInstructions key n) m).metrics.turns = m.metrics.turns := by
  rcases h.runInstructions_cases runs n with ⟨m', ran, stretch⟩ | ⟨fault, m', broke, halt⟩
  · obtain ⟨k, -, spell, -⟩ := stretch.spell h
    rw [after_of_ok ran, spell.metrics]
    rfl
  · obtain ⟨k, -, spell⟩ := halt.spell h
    rw [after_of_error broke, spell.metrics]
    rfl

theorem turns_endTurn (h : Sound ps m) (current : m.current = some key) (start : Int) :
    (after (Machine.endTurn key start) m).metrics.turns
      = (m.metrics.logSlice ⟨key, start, m.now⟩).turns := by
  obtain ⟨m₁, m', left, departure, same⟩ := h.leave_departs current start
  have ended : Machine.endTurn key start m = .ok key m' := by
    unfold Machine.endTurn
    simp only [bind_apply, get_apply, measure_apply]
    rw [left]
    rfl
  rw [after_of_ok ended, Machine.metrics_of_inside same, departure.metrics]
  rfl

end Sound

/-! ### Two machines with the same programs -/

/-- Two sound machines with the same programs, of which none is longer than either quantum, are at the
same point. -/
structure Coupled (ps : List Program) (m m' : Machine) : Prop where
  ample : Ample ps m
  ample' : Ample ps m'
  settled : Settled m
  settled' : Settled m'
  abreast : Abreast m m'

namespace Coupled

variable {ps : List Program} {m m' : Machine} {key : Int}

/-- Moves keep the quantum and the programs. -/
theorem moves (h : Coupled ps m m') {m₁ m₁' : Machine} (moves : Moves m m₁) (moves' : Moves m' m₁')
    (settled : Settled m₁) (settled' : Settled m₁') (abreast : Abreast m₁ m₁') :
    Coupled ps m₁ m₁' :=
  ⟨h.ample.of_quantum (h.ample.sound.moves moves) moves.quantum,
    h.ample'.of_quantum (h.ample'.sound.moves moves') moves'.quantum, settled, settled', abreast⟩

/-- However long the turns may be, they end at the same point. -/
theorem runInstructions (h : Coupled ps m m') (runs : m.Runs key) (runs' : m'.Runs key) :
    InStep (Machine.runInstructions key m.quantum.toNat)
      (Machine.runInstructions key m'.quantum.toNat) m m' := by
  obtain ⟨p, known, -⟩ := runs.2
  obtain ⟨p', known', -⟩ := runs'.2
  -- the greater quantum is enough for both, and nothing is left to do after either
  have left := h.ample.sound.runInstructions_enough runs known (h.ample.length_ahead_le known)
    (Nat.le_max_left m.quantum.toNat m'.quantum.toNat)
  have right := h.ample'.sound.runInstructions_enough runs' known' (h.ample'.length_ahead_le known')
    (Nat.le_max_right m.quantum.toNat m'.quantum.toNat)
  refine InStep.congr ?_ left.symm right.symm
  refine .of_blind (Veil.quanta.likeness.runInstructions key _) h.abreast ?_
  rw [h.ample.sound.turns_runInstructions runs, h.ample'.sound.turns_runInstructions runs',
    h.abreast.turns]

theorem burst (h : Coupled ps m m') (runs : m.Runs key) (runs' : m'.Runs key) :
    InStep Machine.burst Machine.burst m m' := by
  suffices turn : InStep (do Machine.runInstructions key m.quantum.toNat; Machine.endTurn key m.now)
      (do Machine.runInstructions key m'.quantum.toNat; Machine.endTurn key m'.now) m m' from
    turn.congr (h.ample.sound.burst_eq runs) (h.ample'.sound.burst_eq runs')
  rw [h.abreast.now]
  refine (h.runInstructions runs runs').bind fun _ m₁ m₁' ran ran' abreast => ?_
  have stretch := h.ample.sound.stretch runs ran
  have stretch' := h.ample'.sound.stretch runs' ran'
  have sound := h.ample.sound.works stretch.works
  have sound' := h.ample'.sound.works stretch'.works
  refine .of_blind (Machine.blind_endTurn .quanta key m'.now) abreast ?_
  rw [sound.turns_endTurn (stretch.current.trans runs.1),
    sound'.turns_endTurn (stretch'.current.trans runs'.1), abreast.now]
  exact Metrics.turns_logSlice abreast.turns _

theorem proceed (h : Coupled ps m m') : InStep Machine.proceed Machine.proceed m m' := by
  cases current : m.current with
  | none =>
    have current' : m'.current = none := h.abreast.current.symm.trans current
    have ticked : Abreast { m with clock := m.clock.tick, metrics := m.metrics.countIdle }
        { m' with clock := m'.clock.tick, metrics := m'.metrics.countIdle } :=
      ⟨congrArg (fun m : Machine => { m with
        clock := m.clock.tick, metrics := m.metrics.countIdle }) h.abreast.shown, h.abreast.turns⟩
    exact .of_ok ticked (Machine.proceed_of_idle current) (Machine.proceed_of_idle current')
  | some key =>
    have current' : m'.current = some key := h.abreast.current.symm.trans current
    refine InStep.congr ?_ (Machine.proceed_of_busy current) (Machine.proceed_of_busy current')
    refine (h.burst ⟨current, h.settled key current⟩ ⟨current', h.settled' key current'⟩).bind ?_
    exact fun _ m₁ m₁' _ _ abreast => .of_ok abreast rfl rfl

/-- The processor is given away in one machine if it is given away in the other. -/
theorem begins (h : Coupled ps m m') : InStep (do Machine.promote; Machine.occupy)
    (do Machine.promote; Machine.occupy) m m' := by
  have promotes : InStep Machine.promote Machine.promote m m' := by
    refine .of_blind (Veil.quanta.likeness.promote) h.abreast ?_
    rw [h.ample.sound.turns_promote, h.ample'.sound.turns_promote, h.abreast.turns]
  refine promotes.bind fun _ m₁ m₁' promoted promoted' abreast => ?_
  have sound := h.ample.sound.works (h.ample.sound.promotion promoted).works
  have sound' := h.ample'.sound.works (h.ample'.sound.promotion promoted').works
  obtain ⟨switches, slices⟩ := Prod.mk.inj abreast.turns
  refine .of_blind (Veil.quanta.likeness.occupy) abreast ?_
  rw [sound.turns_occupy, sound'.turns_occupy, abreast.current, abreast.queue, switches, slices]

theorem step (h : Coupled ps m m') : InStep Machine.step Machine.step m m' := by
  have parts : ∀ m, Machine.step m
      = (do (do Machine.promote; Machine.occupy); Machine.proceed : Operation Bool) m :=
    fun m => congrFun (bind_assoc _ _ _).symm m
  refine InStep.congr ?_ (parts m) (parts m')
  refine h.begins.bind fun _ m₁ m₁' began began' abreast => ?_
  obtain ⟨works, settled, -⟩ := h.ample.sound.begun h.settled began
  obtain ⟨works', settled', -⟩ := h.ample'.sound.begun h.settled' began'
  exact (h.moves works.moves works'.moves settled settled' abreast).proceed

end Coupled

/-! ### The pauses may be refused -/

theorem Abreast.settled {m m' : Machine} (h : Abreast m m') (settled : Settled m) : Settled m' := by
  intro key current
  obtain ⟨p, known, runs⟩ := settled key (h.current.trans current)
  have bare : m'.bare = m.bare := by
    rw [← m'.veiled_bare .quanta, ← h.shown, m.veiled_bare]
  have found : (m'.scheduler.process? key).map ControlBlock.bare = some p.bare := by
    have shown := congrArg (fun m : Machine => m.scheduler.process? key) bare
    refine (m'.scheduler.process?_bare key).symm.trans (shown.trans ?_)
    exact (m.scheduler.process?_bare key).trans (congrArg (Option.map ControlBlock.bare) known)
  obtain ⟨p', known', same⟩ := Option.map_eq_some_iff.1 found
  exact ⟨p', known', (congrArg ControlBlock.state same :).trans runs⟩

theorem Stuck.not_settled {ps : List Program} {s m : Machine} {key : Int} {p : ControlBlock}
    {r : Resource} {n : Nat} (stuck : Stuck s key p r) (h : Sound ps s)
    (same : m.inside = (s.crowd r key n).inside) : ¬Settled m := by
  intro settled
  have mirrors := stuck.mirrors h same
  have current := mirrors.current.trans stuck.current
  exact stuck.not_runs mirrors ⟨current, settled key current⟩

/-- A process that waits in vain executes one instruction, however long the turn may be, and no turn is
counted. -/
theorem Stuck.step_eq_beginStep {ps : List Program} {s m : Machine} {key : Int} {p : ControlBlock}
    {r : Resource} {n : Nat} (stuck : Stuck s key p r) (h : Sound ps s)
    (same : m.inside = (s.crowd r key n).inside) : ∃ fault m₁, Machine.step m = .error fault m₁ ∧
      Machine.beginStep 1 m = .error fault m₁ ∧ m₁.metrics.turns = m.metrics.turns := by
  obtain ⟨s₁, fault, m₁, promotion, -, -, raised, begun, inside⟩ := stuck.step h same
  refine ⟨fault, m₁, raised, begun 0, ?_⟩
  have metrics : m₁.metrics = s₁.metrics.countActive := Machine.metrics_of_inside inside
  have metrics₀ : m.metrics = s.metrics := (stuck.mirrors h same).metrics
  rw [metrics, promotion.metrics, metrics₀]
  rfl

theorem Machine.blind_beginStep (v : Veil) (k : Nat) : Blind v (beginStep k) := by
  refine v.likeness.promote.bind fun _ => v.likeness.occupy.bind fun _ => ?_
  refine v.likeness.look (fun m => ?_) fun m => rfl
  split
  · exact v.likeness.runInstructions _ k
  · exact .pure ()

/-- Two machines with the same programs, of which none is longer than either quantum, are at the same
point, also if a process waits in vain. -/
structure Paired (ps : List Program) (m m' : Machine) : Prop where
  kept : ∃ s, Kept ps s m
  kept' : ∃ s, Kept ps s m'
  long : ∀ P ∈ ps, (P.lines.length : Int) ≤ m.quantum
  long' : ∀ P ∈ ps, (P.lines.length : Int) ≤ m'.quantum
  abreast : Abreast m m'

namespace Paired

variable {ps : List Program} {m m' : Machine} {key : Int}

theorem step (h : Paired ps m m') : InStep Machine.step Machine.step m m' := by
  obtain ⟨⟨s, kept⟩, ⟨s', kept'⟩, long, long', abreast⟩ := h
  cases kept with
  | clear sound settled =>
    cases kept' with
    | clear sound' settled' =>
      exact Coupled.step ⟨⟨sound, long⟩, ⟨sound', long'⟩, settled, settled', abreast⟩
    | crowded sound' stuck' same' =>
      exact absurd (abreast.settled settled) (stuck'.not_settled sound' same')
  | crowded sound stuck same =>
    cases kept' with
    | clear sound' settled' =>
      have back : Abreast m' m := ⟨abreast.shown.symm, abreast.turns.symm⟩
      exact absurd (back.settled settled') (stuck.not_settled sound same)
    | crowded sound' stuck' same' =>
      obtain ⟨fault, m₁, raised, begun, turns⟩ := stuck.step_eq_beginStep sound same
      obtain ⟨fault', m₁', raised', begun', turns'⟩ := stuck'.step_eq_beginStep sound' same'
      have begins : InStep (Machine.beginStep 1) (Machine.beginStep 1) m m' := by
        refine .of_blind (Machine.blind_beginStep .quanta 1) abreast ?_
        rw [after_of_error begun, after_of_error begun', turns, turns', abreast.turns]
      obtain ⟨m₂, begun₂, abreast₁⟩ := begins.error begun
      cases begun'.symm.trans begun₂
      exact .of_error abreast₁ raised raised'

theorem of_proper {α : Type} {op : Operation α} (proper : Proper op) (h : Paired ps m m')
    (together : InStep op op m m') : Paired ps (after op m) (after op m') := by
  obtain ⟨⟨s, kept⟩, ⟨s', kept'⟩, long, long', -⟩ := h
  obtain ⟨s₁, kept₁, -⟩ := proper ps s m kept
  obtain ⟨s₁', kept₁', -⟩ := proper ps s' m' kept'
  exact ⟨⟨s₁, kept₁⟩, ⟨s₁', kept₁'⟩, (proper.quantum kept).symm ▸ long,
    (proper.quantum kept').symm ▸ long', together.abreast⟩

theorem runSteps (h : Paired ps m m') (limit : Option Int) (left taken : Nat) :
    InStep (Machine.runSteps limit left taken) (Machine.runSteps limit left taken) m m' := by
  induction left generalizing m m' taken with
  | zero => exact h.abreast.runSteps (.of_error h.abreast rfl rfl)
  | succ left ih =>
    refine h.abreast.runSteps (h.step.bind fun _ m₁ m₁' took took' _ => ?_)
    have later := h.of_proper .step h.step
    rw [after_of_ok took, after_of_ok took'] at later
    exact ih later (taken + 1)

/-- Runs differ in nothing but the quantum that they name at their beginning, if both can name it or
neither can. -/
theorem run (h : Paired ps m m') (writable : Integer.isWritable m.quantum
    = Integer.isWritable m'.quantum) (limit : Option Int) :
    InStep (Machine.run limit) (Machine.run limit) m m' := by
  by_cases short : Integer.isWritable m.quantum
  case neg =>
    exact .of_error h.abreast (Machine.run_of_long short limit)
      (Machine.run_of_long (writable ▸ short) limit)
  refine InStep.congr ?_ (Machine.run_apply short limit)
    (Machine.run_apply (writable ▸ short) limit)
  have bound : m.stepBound = m'.stepBound :=
    Veil.quanta.likeness.same _ Machine.stepBound_bare h.abreast.shown
  rw [bound]
  have said : Paired ps (m.record (.notice (.started m.quantum)))
      (m'.record (.notice (.started m'.quantum))) := by
    obtain ⟨⟨s, kept⟩, ⟨s', kept'⟩, long, long', abreast⟩ := h
    have told : ∀ x : Machine, (x.record (.notice (.started x.quantum))).inside = x.inside :=
      fun _ => rfl
    obtain ⟨s₁, kept₁, -⟩ := kept.quiet (told m)
    obtain ⟨s₁', kept₁', -⟩ := kept'.quiet (told m')
    refine ⟨⟨s₁, kept₁⟩, ⟨s₁', kept₁'⟩, long, long', ?_, abreast.turns⟩
    rw [Machine.veiled_record_of_hidden .quanta _ rfl, abreast.shown,
      Machine.veiled_record_of_hidden .quanta _ rfl]
  refine (said.runSteps limit _ 0).bind fun _ m₁ m₁' _ _ abreast => ?_
  exact .of_blind Veil.quanta.likeness.now abreast abreast.turns

theorem createProcess (h : Paired ps m m') (lines : List String) (release : Setting) :
    InStep (Machine.createProcess lines release) (Machine.createProcess lines release) m m' := by
  have kept : ∀ m : Machine,
      (after (Machine.createProcess lines release) m).metrics = m.metrics := by
    intro m
    rcases m.after_createProcess_cases lines release with ⟨time, m₁, load, same⟩ | unchanged
    · rw [Machine.metrics_of_inside same]
      cases load
      rfl
    · rw [unchanged]
  refine .of_blind (Veil.quanta.likeness.createProcess lines release) h.abreast ?_
  rw [kept, kept, h.abreast.turns]

/-- A program that is no longer than the quantum may be loaded. -/
theorem keeps_load {lines : List String} {release : Setting} {time : Int}
    (kept : ∃ s, Kept ps s m) (long : ∀ P ∈ ps, (P.lines.length : Int) ≤ m.quantum)
    (fits : (lines.length : Int) ≤ m.quantum) (given : release.integer? = some time)
    (admits : m.Admits lines release m') : (∃ s, Kept (ps ++ [⟨lines, time⟩]) s m') ∧
      ∀ P ∈ ps ++ [⟨lines, time⟩], (P.lines.length : Int) ≤ m'.quantum := by
  obtain ⟨s, kept⟩ := kept
  obtain ⟨m₁, load, same⟩ := Machine.load_of_admits given admits
  obtain ⟨s₁, kept₁, -⟩ := kept.load load
  obtain ⟨s₂, kept₂, -⟩ := kept₁.quiet same
  refine ⟨⟨s₂, kept₂⟩, fun Q hQ => ?_⟩
  rw [Machine.quantum_of_inside same, load.quantum]
  rcases List.mem_append.1 hQ with old | new
  · exact long Q old
  · rw [List.mem_singleton.1 new]
    exact fits

/-- A program that is no longer than either quantum may be loaded. -/
theorem after_createProcess (h : Paired ps m m') {lines : List String} (release : Setting)
    (fits : (lines.length : Int) ≤ m.quantum) (fits' : (lines.length : Int) ≤ m'.quantum) :
    ∃ ps', Paired ps' (after (Machine.createProcess lines release) m)
      (after (Machine.createProcess lines release) m') := by
  have created := h.createProcess lines release
  rcases m.createProcess_cases lines release with
    ⟨time, m₀, n, given, -, result⟩ | ⟨fault, known, refused⟩
  · -- both machines tell of the program, or both end in the fault that its release time is too long
    obtain ⟨m₁, m₁', admits, admits', abreast⟩ : ∃ m₁ m₁', m.Admits lines release m₁ ∧
        m'.Admits lines release m₁' ∧ Abreast m₁ m₁' := by
      by_cases short : Integer.isWritable time
      · rw [if_pos short] at result
        obtain ⟨m₁', result', abreast⟩ := created.ok result
        exact ⟨_, m₁', .inl ⟨_, result⟩, .inl ⟨_, result'⟩, abreast⟩
      · rw [if_neg short] at result
        obtain ⟨m₁', result', abreast⟩ := created.error result
        exact ⟨_, m₁', .inr result, .inr result', abreast⟩
    rw [Machine.after_of_admits admits, Machine.after_of_admits admits']
    obtain ⟨kept, long⟩ := keeps_load h.kept h.long fits given admits
    obtain ⟨kept', long'⟩ := keeps_load h.kept' h.long' fits' given admits'
    exact ⟨ps ++ [⟨lines, time⟩], kept, kept', long, long', abreast⟩
  · obtain ⟨m₁', refused', -⟩ := created.error refused
    obtain rfl := Machine.eq_of_refused refused' known
    rw [after_of_error refused, after_of_error refused']
    exact ⟨ps, h⟩

end Paired

/-! ### Requests -/

namespace Request

/-- A step, a run, or the load of a program that is no longer than a quantum. -/
def Within (quantum : Int) : Request → Prop
  | load lines _ => (lines.length : Int) ≤ quantum
  | step | run _ => True
  | shutdown _ _ => False

instance (quantum : Int) (r : Request) : Decidable (r.Within quantum) :=
  match r with
  | load lines _ => inferInstanceAs (Decidable ((lines.length : Int) ≤ quantum))
  | step | run _ => .isTrue trivial
  | shutdown _ _ => .isFalse id

/-- Whether a request is a run, which names the quantum. -/
def isRun : Request → Bool
  | run _ => true
  | _ => false

/-- No request changes the quantum. -/
theorem quantum_after {ps : List Program} {s m : Machine} (r : Request) (h : Kept ps s m) :
    (after r.perform m).quantum = m.quantum := by
  cases r with
  | load lines release =>
    rw [perform, after_bind_pure]
    rcases m.after_createProcess_cases lines release with ⟨time, m₁, load, same⟩ | unchanged
    · rw [Machine.quantum_of_inside same, load.quantum]
    · rw [unchanged]
  | step =>
    rw [perform, after_bind_pure]
    exact Proper.step.quantum h
  | run limit =>
    rw [perform, after_bind_pure]
    exact (Proper.run limit).quantum h
  | shutdown chartFile resultsFile =>
    have same := after_bind_pure (Machine.shutdown chartFile resultsFile)
      (fun _ => Reply.handedOver) m
    rw [perform, same]
    exact Machine.quantum_of_inside (Machine.quiet_shutdown chartFile resultsFile m)

end Request

namespace Paired

variable {ps : List Program} {m m' : Machine}

theorem perform (h : Paired ps m m') {r : Request} (fits : r.Within m.quantum)
    (fits' : r.Within m'.quantum) (writable : r.isRun →
      Integer.isWritable m.quantum = Integer.isWritable m'.quantum) : InStep r.perform r.perform m m' ∧
      ∃ ps', Paired ps' (after r.perform m) (after r.perform m') := by
  cases r with
  | load lines release =>
    rw [Request.perform, after_bind_pure, after_bind_pure]
    exact ⟨(h.createProcess lines release).bind fun _ _ _ _ _ abreast => .of_ok abreast rfl rfl,
      h.after_createProcess release fits fits'⟩
  | step =>
    rw [Request.perform, after_bind_pure, after_bind_pure]
    exact ⟨h.step.bind fun _ _ _ _ _ abreast => .of_ok abreast rfl rfl, ps, h.of_proper .step h.step⟩
  | run limit =>
    rw [Request.perform, after_bind_pure, after_bind_pure]
    exact ⟨(h.run (writable rfl) limit).bind fun _ _ _ _ _ abreast => .of_ok abreast rfl rfl, ps,
      h.of_proper (.run limit) (h.run (writable rfl) limit)⟩
  | shutdown => exact fits.elim

theorem serve (h : Paired ps m m') {requests : List Request}
    (within : ∀ r ∈ requests, r.Within m.quantum ∧ r.Within m'.quantum)
    (writable : ∀ r ∈ requests, r.isRun →
      Integer.isWritable m.quantum = Integer.isWritable m'.quantum) :
    List.Forall₂ (fun x y => x.1 = y.1 ∧ x.2.unquantized = y.2.unquantized)
      (Machine.serve requests m) (Machine.serve requests m') := by
  induction requests generalizing ps m m' with
  | nil => exact .nil
  | cons r rest ih =>
    -- no request changes a quantum, so the others are still within both
    obtain ⟨fits, fits'⟩ := within r List.mem_cons_self
    obtain ⟨performed, ps', paired⟩ := h.perform fits fits' (writable r List.mem_cons_self)
    rw [Machine.serve, Machine.serve]
    obtain ⟨outcome, abreast⟩ := performed.outcome_abreast
    obtain ⟨⟨s, kept⟩, ⟨s', kept'⟩, -⟩ := h
    refine .cons ⟨outcome, abreast.unquantized⟩ (ih paired (fun r' later => ?_) fun r' later => ?_)
    all_goals rw [r.quantum_after kept, r.quantum_after kept']
    · exact within r' (List.mem_cons_of_mem r later)
    · exact writable r' (List.mem_cons_of_mem r later)

end Paired

namespace Machine

section

variable {quantum quantum' : Setting} {memorySize : Int} {verbose : Bool} {delay : Binary64}
  {storage : Storage} {inputs : List String} {sleep : Sleep} {m m' : Machine}

end

end Machine

end RoundRobin
