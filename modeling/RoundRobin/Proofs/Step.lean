import RoundRobin.Proofs.Admission
import RoundRobin.Proofs.Turn

/-!
# Steps

What comes of a step of the system. First the pending processes whose time has come go to the ready
queue, in their order (`Promotion`). Then the front of the ready queue takes the processor if it is
idle (`Occupied`). Then there is a turn, or the clock ticks because nothing can run (`Step`).
-/

namespace RoundRobin

open Operation

/-- All pending processes whose time has come are promoted, in their order, and nothing else
happens. -/
structure Promotion (m m' : Machine) : Prop where
  works : Works m m'
  ready : m'.scheduler.queue .ready = m.scheduler.queue .ready
    ++ (m.scheduler.queue .pending).filter (m.scheduler.due m.now)
  pending : m'.scheduler.queue .pending
    = (m.scheduler.queue .pending).filter fun key => !m.scheduler.due m.now key
  due : m'.scheduler.due m.now = m.scheduler.due m.now
  unmoved : ∀ st, st ≠ .ready → st ≠ .pending → m'.scheduler.queue st = m.scheduler.queue st
  bodies : m'.scheduler.processes.map ControlBlock.body
    = m.scheduler.processes.map ControlBlock.body
  frame : m'.inside = ({ m with scheduler := m'.scheduler } : Machine).inside

namespace Promotion

variable {m m' : Machine}

theorem body? (h : Promotion m m') (key : Int) : m'.scheduler.body? key = m.scheduler.body? key :=
  Scheduler.map_process?_of_map h.bodies key

theorem clock (h : Promotion m m') : m'.clock = m.clock :=
  (Machine.clock_of_inside h.frame).trans rfl

theorem now (h : Promotion m m') : m'.now = m.now := congrArg Clock.now h.clock

theorem current (h : Promotion m m') : m'.current = m.current :=
  (Machine.current_of_inside h.frame).trans rfl

theorem quantum (h : Promotion m m') : m'.quantum = m.quantum :=
  (Machine.quantum_of_inside h.frame).trans rfl

theorem metrics (h : Promotion m m') : m'.metrics = m.metrics :=
  (Machine.metrics_of_inside h.frame).trans rfl

theorem rests (h : Promotion m m') : m'.Rests ↔ m.Rests :=
  (Machine.rests_of_inside h.frame).trans .rfl

end Promotion

/-- What a promotion does to the scheduler is all that it does, but for what shows of it. -/
theorem Machine.promote_apply {m : Machine} {s : Scheduler} {promoted : List Int}
    (moved : m.scheduler.promote m.now = (.ok promoted, s)) : Machine.promote m
      = .ok () (({ m with scheduler := s } : Machine).recordAll
        (promoted.map fun pid => .notice (.promoted pid m.now))) := by
  unfold Machine.promote
  rw [bind_apply, get_apply]
  dsimp only
  rw [bind_apply, schedule_apply moved]
  rfl

namespace Sound

variable {ps : List Program} {m : Machine} {key : Int} {p : ControlBlock}

/-- The promotion of the rest of the pending queue consists of one move for each process that is
due. -/
theorem promoteEach_works (h : Sound ps m) (kept keys : List Int)
    (pending : m.scheduler.queue .pending = kept ++ keys) :
    Works m { m with scheduler := (Scheduler.promoteEach m.now m.scheduler keys).2 } := by
  induction keys generalizing m kept with
  | nil => exact .refl
  | cons key rest ih =>
    have waits : key ∈ m.scheduler.queue .pending := by
      rw [pending]
      exact List.mem_append_right kept List.mem_cons_self
    obtain ⟨p, known, stands⟩ := h.orderly.process?_of_mem waits
    have known' : m.scheduler.processes.process? key = some p := known
    by_cases due : p.releaseTime ≤ m.now
    · have moved := Scheduler.transfer_promoteOne known stands
      have promotion : Work m { m with scheduler := m.scheduler.promoteOne key } :=
        .promote known stands due moved
      have nodup := h.orderly.nodup_queue .pending
      have erased : (m.scheduler.promoteOne key).queue .pending = kept ++ rest := by
        rw [pending] at nodup
        have other : key ∉ kept := fun hk =>
          (List.nodup_append.1 nodup).2.2 key hk key List.mem_cons_self rfl
        rw [moved.queue, if_neg (by decide), if_pos rfl, pending,
          List.erase_append_right _ other, List.erase_cons_head]
      simp only [Scheduler.promoteEach, known', if_pos due]
      exact .head promotion (ih (h.work promotion) kept erased)
    · have longer : m.scheduler.queue .pending = kept ++ [key] ++ rest := by
        rw [pending, List.append_assoc]
        rfl
      simp only [Scheduler.promoteEach, known', if_neg due]
      exact ih h (kept ++ [key]) longer

/-- The promotion at the beginning of a step. -/
theorem promote_works (h : Sound ps m) :
    ∃ m', Machine.promote m = .ok () m' ∧ Promotion m m' := by
  have result : m.scheduler.promote m.now = _ := Scheduler.promote_eq h.orderly.isSome_of_mem_pending
  have works := h.promoteEach_works [] (m.scheduler.queue .pending) rfl
  rw [show Scheduler.promoteEach m.now m.scheduler (m.scheduler.queue .pending) = _ from result]
    at works
  have run := Machine.promote_apply result
  generalize told : Machine.recordAll _ _ = m' at run
  have same : m'.inside = ({ m with scheduler := m.scheduler.admitted m.now } : Machine).inside :=
    told ▸ rfl
  have scheduler : m'.scheduler = m.scheduler.admitted m.now := Machine.scheduler_of_inside same
  have bodies := m.scheduler.map_promoteEach (g := ControlBlock.body) (fun _ => rfl) m.now
    (m.scheduler.queue .pending)
  rw [show Scheduler.promoteEach m.now m.scheduler (m.scheduler.queue .pending) = _ from result]
    at bodies
  refine ⟨m', run, works.tail (.outside same), ?_, ?_, ?_, fun st ready pending => ?_, ?_, ?_⟩
  · rw [scheduler]
    rfl
  · rw [scheduler]
    rfl
  · rw [scheduler, Scheduler.due_admitted]
  · rw [scheduler]
    cases st <;> first | rfl | contradiction
  · rw [scheduler]
    exact bodies
  · rw [scheduler]
    exact same

theorem promotion (h : Sound ps m) {m' : Machine} (promoted : Machine.promote m = .ok () m') :
    Promotion m m' := by
  obtain ⟨m₁, run, promotion⟩ := h.promote_works
  cases promoted.symm.trans run
  exact promotion

end Sound

/-! ### The processor -/

/-- The process under a key has the processor, or takes it because it is idle. -/
inductive Occupied (key : Int) (m : Machine) : Machine → Prop where
  | busy (current : m.current = some key) : Occupied key m m
  | dispatched {p : ControlBlock} {m₁ m' : Machine} (dispatch : Dispatch key p m m₁)
    (same : m'.inside = m₁.inside) : Occupied key m m'

theorem Occupied.works {key : Int} {m m' : Machine} (o : Occupied key m m') : Works m m' := by
  cases o with
  | busy => exact .refl
  | dispatched dispatch same => exact .tail (.single (.dispatch dispatch)) (.outside same)

namespace Dispatch

variable {key : Int} {p : ControlBlock} {m m' : Machine}

theorem now (d : Dispatch key p m m') : m'.now = m.now := by
  cases d
  rfl

theorem quantum (d : Dispatch key p m m') : m'.quantum = m.quantum := by
  cases d
  rfl

theorem metrics (d : Dispatch key p m m') : m'.metrics
    = { m.metrics with contextSwitches := m.metrics.contextSwitches + 1 } := by
  cases d
  rfl

theorem process?_self (d : Dispatch key p m m') :
    m'.scheduler.process? key = some ((p.enter .running).started m.now) := by
  obtain ⟨idle, front, known, moved⟩ := d
  exact Scheduler.process?_amend_self (moved.process?_self known) _

theorem body?_of_ne (d : Dispatch key p m m') {k : Int} (ne : k ≠ key) :
    m'.scheduler.body? k = m.scheduler.body? k := by
  obtain @⟨rest, s, idle, front, known, moved⟩ := d
  exact (s.body?_amend_of_ne ne _).trans (moved.body?_eq k)

theorem queue (d : Dispatch key p m m') (st : Station) (ne : st ≠ .ready) (ne' : st ≠ .running) :
    m'.scheduler.queue st = m.scheduler.queue st := by
  obtain ⟨idle, front, known, moved⟩ := d
  exact (Scheduler.queue_amend _ _ _ _).trans (moved.queue_of_ne ne ne')

theorem runs (d : Dispatch key p m m') : m'.Runs key := by
  have known := d.process?_self
  obtain ⟨-, -, -, -⟩ := d
  exact ⟨rfl, _, known, rfl⟩

/-- The process that takes the processor was ready. -/
theorem stands {ps : List Program} (d : Dispatch key p m m') (h : Sound ps m) :
    m.scheduler.process? key = some p ∧ p.station? = some .ready := by
  obtain ⟨idle, front, known, moved⟩ := d
  obtain ⟨q, hq, stands⟩ := h.orderly.process?_of_mem (front ▸ List.mem_cons_self)
  cases known.symm.trans hq
  exact ⟨known, stands⟩

end Dispatch

theorem Occupied.now {key : Int} {m m' : Machine} (o : Occupied key m m') : m'.now = m.now := by
  cases o with
  | busy => rfl
  | dispatched dispatch same => exact (Machine.now_of_inside same).trans dispatch.now

theorem Occupied.quantum {key : Int} {m m' : Machine} (o : Occupied key m m') :
    m'.quantum = m.quantum := by
  cases o with
  | busy => rfl
  | dispatched dispatch same => exact (Machine.quantum_of_inside same).trans dispatch.quantum

theorem Occupied.rests {key : Int} {m m' : Machine} (o : Occupied key m m') : m'.Rests ↔ m.Rests := by
  cases o with
  | busy => rfl
  | dispatched dispatch same =>
    cases dispatch
    exact (Machine.rests_of_inside same).trans .rfl

/-- A switch is counted if the processor was idle. -/
theorem Occupied.metrics {key : Int} {m m' : Machine} (o : Occupied key m m') : m'.metrics
    = { m.metrics with
        contextSwitches := m.metrics.contextSwitches + if m.current = none then 1 else 0 } := by
  cases o with
  | busy current =>
    rw [current, if_neg nofun]
    simp
  | dispatched dispatch same =>
    rw [Machine.metrics_of_inside same, dispatch.metrics]
    obtain ⟨idle, -, -, -⟩ := dispatch
    rw [if_pos idle]

theorem Occupied.runs {key : Int} {m m' : Machine} (o : Occupied key m m') (settled : Settled m) :
    m'.Runs key := by
  cases o with
  | busy current => exact ⟨current, settled key current⟩
  | dispatched dispatch same => exact dispatch.runs.of_inside same

/-- The process that was selected takes the processor under its key. -/
theorem Machine.dispatch_apply {m : Machine} {key : Int} {s : Scheduler}
    (selected : m.scheduler.selectNext = (.ok (some key), s))
    (pid : (s.amend key (ControlBlock.started m.now)).pidOf key = key) :
    dispatch m = .ok (some key) (({ m with
      scheduler := s.amend key (ControlBlock.started m.now)
      current := some key
      metrics := { m.metrics with contextSwitches := m.metrics.contextSwitches + 1 } } :
        Machine).record (.notice (.dispatched key m.now))) := by
  have run : dispatch m = (fun pid => EStateM.Result.ok (some pid) (({ m with
      scheduler := s.amend key (ControlBlock.started m.now)
      current := some pid
      metrics := { m.metrics with contextSwitches := m.metrics.contextSwitches + 1 } } :
        Machine).record (.notice (.dispatched pid m.now))))
      ((s.amend key (ControlBlock.started m.now)).pidOf key) := by
    unfold dispatch
    rw [bind_apply, schedule_apply selected]
    rfl
  rw [run, pid]

/-- A processor that is taken is not given away. -/
theorem Machine.occupy_of_busy {m : Machine} {key : Int} (current : m.current = some key) :
    occupy m = .ok () m := by
  have busy : m.isIdle = false := by rw [isIdle, current]; rfl
  unfold occupy
  rw [bind_apply, get_apply]
  dsimp only
  rw [busy]
  rfl

namespace Sound

variable {ps : List Program} {m : Machine}

theorem dispatch_cases (h : Sound ps m) (idle : m.current = none) {key : Int} {rest : Queue}
    (front : m.scheduler.queue .ready = key :: rest) :
    ∃ p m₁ m', Machine.dispatch m = .ok (some key) m' ∧ Dispatch key p m m₁ ∧
      m'.inside = m₁.inside := by
  have waits : key ∈ m.scheduler.queue .ready := by rw [front]; exact List.mem_cons_self
  obtain ⟨p, known, stands⟩ := h.orderly.process?_of_mem waits
  obtain ⟨s, selected, moved⟩ := Scheduler.transfer_selectNext front known stands
  have orderly : (s.amend key (ControlBlock.started m.now)).Orderly :=
    (h.orderly.transfer known stands (by decide) moved).amend (fun _ => rfl) (fun _ => rfl)
  have pid := orderly.pidOf (Scheduler.process?_amend_self (moved.process?_self known) _)
  exact ⟨p, _, _, Machine.dispatch_apply selected pid, .intro idle front known moved, rfl⟩

/-- The processor is given away if it is idle and some process is ready. -/
theorem occupy_cases (h : Sound ps m) :
    (∃ key m', Machine.occupy m = .ok () m' ∧ Occupied key m m') ∨
      Machine.occupy m = .ok () m ∧ m.current = none ∧ m.scheduler.queue .ready = [] := by
  cases current : m.current with
  | some key => exact .inl ⟨key, m, Machine.occupy_of_busy current, .busy current⟩
  | none =>
    have idle : m.isIdle = true := by rw [Machine.isIdle, current]; rfl
    unfold Machine.occupy
    rw [bind_apply, get_apply]
    dsimp only
    rw [idle]
    cases front : m.scheduler.ready with
    | nil => exact .inr ⟨rfl, rfl, front⟩
    | cons key rest =>
      obtain ⟨p, m₁, m', run, dispatch, same⟩ := h.dispatch_cases current front
      refine .inl ⟨key, ?_⟩
      rw [if_pos (by rfl), bind_apply, run]
      dsimp only
      by_cases verbose : m.verbose
      · rw [if_pos verbose]
        exact ⟨_, rfl, .dispatched dispatch same⟩
      · rw [if_neg verbose]
        exact ⟨m', rfl, .dispatched dispatch same⟩

end Sound

/-! ### A whole step -/

namespace Machine

variable {m m₁ m₂ : Machine} {key : Int}

/-- A step is the turn or the tick after the promotion and the dispatch. -/
theorem step_eq (promoted : promote m = .ok () m₁) (occupied : occupy m₁ = .ok () m₂) :
    step m = proceed m₂ := by
  unfold step
  rw [bind_apply, promoted]
  dsimp only
  rw [bind_apply, occupied]

theorem proceed_of_idle (idle : m.current = none) :
    proceed m = .ok false { m with clock := m.clock.tick, metrics := m.metrics.countIdle } := by
  have quiet : m.isIdle = true := by rw [isIdle, idle]; rfl
  unfold proceed
  rw [bind_apply, get_apply]
  dsimp only
  rw [if_pos quiet]
  rfl

theorem proceed_of_busy (busy : m.current = some key) :
    proceed m = (do let _ ← burst; return true : Operation Bool) m := by
  have occupied : m.isIdle = false := by rw [isIdle, busy]; rfl
  unfold proceed
  rw [bind_apply, get_apply]
  dsimp only
  rw [if_neg (by rw [occupied]; decide)]

/-- A step up to a number of instructions of its turn. -/
def beginStep (k : Nat) : Operation Unit := do
  promote
  occupy
  match (← get).current with
  | some key => runInstructions key k
  | none => pure ()

theorem beginStep_of_busy {m m₁ m₂ : Machine} {key : Int} (promoted : promote m = .ok () m₁)
    (occupied : occupy m₁ = .ok () m₂) (busy : m₂.current = some key) (k : Nat) :
    beginStep k m = runInstructions key k m₂ := by
  unfold beginStep
  rw [bind_apply, promoted]
  dsimp only
  rw [bind_apply, occupied]
  dsimp only
  rw [bind_apply, get_apply]
  dsimp only
  rw [busy]

theorem after_beginStep_of_busy {m m₁ m₂ : Machine} {key : Int}
    (promoted : promote m = .ok () m₁) (occupied : occupy m₁ = .ok () m₂)
    (busy : m₂.current = some key) (k : Nat) :
    after (beginStep k) m = after (runInstructions key k) m₂ := by
  unfold after
  rw [beginStep_of_busy promoted occupied busy]

theorem after_beginStep_of_idle {m m₁ m₂ : Machine} (promoted : promote m = .ok () m₁)
    (occupied : occupy m₁ = .ok () m₂) (idle : m₂.current = none) (k : Nat) :
    after (beginStep k) m = m₂ := by
  unfold beginStep
  rw [after_bind_of_ok promoted, after_bind_of_ok occupied, after_get_bind, idle]
  rfl

end Machine

/-- What comes of a step. -/
inductive Step (m : Machine) : EStateM.Result Fault Machine Bool → Prop where
  | idle {m₁ m' : Machine} (promotion : Promotion m m₁) (idle : m₁.current = none)
    (nobody : m₁.scheduler.queue .ready = [])
    (same : m'.inside = ({ m₁ with
      clock := m₁.clock.tick, metrics := m₁.metrics.countIdle } : Machine).inside) :
    Step m (.ok false m')
  | turn {key : Int} {m₁ m₂ m' : Machine} (promotion : Promotion m m₁)
    (occupied : Occupied key m₁ m₂) (turn : Turn key m₂ m') : Step m (.ok true m')
  | fault {key : Int} {fault : Fault} {m₁ m₂ m' : Machine} (promotion : Promotion m m₁)
    (occupied : Occupied key m₁ m₂) (halt : Halt key m₂.quantum.toNat fault m₂ m') :
    Step m (.error fault m')

namespace Promotion

variable {m m' : Machine}

/-- After the promotion all that are pending are early. -/
theorem early (h : Promotion m m') {key : Int} {p : ControlBlock}
    (waits : key ∈ m'.scheduler.queue .pending) (known : m'.scheduler.process? key = some p) :
    m'.now < p.releaseTime := by
  rw [h.pending] at waits
  have late := (List.mem_filter.1 waits).2
  rw [← h.due, Scheduler.due_eq known] at late
  have now := h.now
  simp only [Bool.not_eq_eq_eq_not, Bool.not_true, decide_eq_false_iff_not] at late
  omega

theorem settled (h : Promotion m m') {ps : List Program} (sound : Sound ps m)
    (settled : Settled m) : Settled m' := by
  intro key current
  rw [h.current] at current
  have runs : key ∈ m'.scheduler.queue .running := by
    rw [h.unmoved .running (by decide) (by decide), sound.queue_running settled, current]
    exact List.mem_singleton_self key
  have orderly := (sound.works h.works).orderly
  obtain ⟨p, known, -⟩ := orderly.process?_of_mem runs
  exact ⟨p, known, orderly.state_of_mem runs known⟩

end Promotion

theorem Settled.of_idle {m : Machine} (idle : m.current = none) : Settled m := by
  intro key current
  rw [idle] at current
  cases current

/-- After a turn nobody has the processor. -/
theorem Turn.idle {key : Int} {m m' : Machine} (turn : Turn key m m') : m'.current = none := by
  obtain ⟨stretch, departure, same⟩ := turn
  rw [Machine.current_of_inside same]
  cases departure <;> rfl

theorem Turn.settled {key : Int} {m m' : Machine} (turn : Turn key m m') : Settled m' :=
  .of_idle turn.idle

theorem Broken.works {key : Int} {n : Nat} {m m' : Machine} (b : Broken key n m m') :
    Works m m' := by
  obtain ⟨done, -, -⟩ := b
  exact done.works

theorem Facing.settled {m : Machine} {key : Int} {p : ControlBlock} {i : Instruction}
    (facing : Facing m key p i) : Settled m := by
  intro other current
  cases facing.current.symm.trans current
  exact ⟨_, facing.known, facing.runs⟩

theorem Stuck.of_inside {m m' : Machine} {key : Int} {p : ControlBlock} {r : Resource}
    (h : Stuck m key p r) (same : m'.inside = m.inside) : Stuck m' key p r := by
  have scheduler := Machine.scheduler_of_inside same
  refine ⟨(Machine.current_of_inside same).trans h.current, scheduler ▸ h.known, h.stands, ?_,
    scheduler ▸ h.used_up, (Machine.rests_of_inside same).not.2 h.refused⟩
  rw [Machine.memory_of_inside same]
  exact h.instruction

theorem Hindered.moves {key : Int} {m m' : Machine} (h : Hindered key m m') : Moves m m' := by
  cases h with
  | stalls stall same => exact .tail (.single (.stall stall)) (.work (.outside same))
  | blocks blocking refused same => exact .tail (.single (.work (.block blocking))) (.work (.outside same))

/-- A process that executed an instruction in vain faces it still. -/
theorem Stall.faces {ps : List Program} {key : Int} {p : ControlBlock} {i : Instruction}
    {m m' : Machine} (sound : Sound ps m) (stall : Stall key p i m m') : ∃ p', Facing m' key p' i := by
  obtain ⟨facing, effect, refused⟩ := stall
  obtain ⟨n, known⟩ := sound.process?_of_effect facing effect
  obtain ⟨P, hP, -, standing⟩ := sound.next?_of_facing facing
  have known' := Scheduler.process?_amend_self known ControlBlock.counted
  have placed' := ((sound.effect facing effect).charge key).layout.placed key P _ hP known'
  exact ⟨_, facing.current, known', facing.runs, placed'.holds.instructionSlot?_pc.trans standing⟩

/-- A process whose pause was refused faces its instruction still, or it was blocked and has the
processor still. -/
theorem Hindered.facing_or_stuck {ps : List Program} {key : Int} {m m' : Machine} (sound : Sound ps m)
    (h : Hindered key m m') : (∃ p i, Facing m' key p i) ∨ ∃ p r, Stuck m' key p r := by
  cases h with
  | stalls stall same =>
    obtain ⟨p', facing⟩ := stall.faces sound
    exact .inl ⟨_, _, facing.of_inside same⟩
  | @blocks p r m₁ _ blocking refused same =>
    obtain @⟨s, facing, used_up, moved⟩ := blocking
    have known := Scheduler.process?_amend_self (moved.process?_self facing.known) ControlBlock.counted
    have none_left : ¬0 < s.permits r := (moved.permits r).symm ▸ used_up
    have stuck : Stuck (({ m with scheduler := s } : Machine).charge key) key
        (p.enter (.blocked r)).counted r :=
      ⟨facing.current, known, ControlBlock.station?_enter (.blocked r) p, facing.instruction, none_left,
        refused⟩
    exact .inr ⟨_, r, stuck.of_inside same⟩

namespace Halt

variable {ps : List Program} {m m' : Machine} {key : Int} {n : Nat} {fault : Fault}

theorem moves (h : Halt key n fault m m') : Moves m m' := by
  cases h with
  | broken broken => exact broken.works.moves
  | hindered _ _ hindered => exact hindered.moves

theorem facing_or_stuck (sound : Sound ps m) (h : Halt key n fault m m') :
    (∃ p i, Facing m' key p i) ∨ ∃ p r, Stuck m' key p r := by
  cases h with
  | broken broken =>
    obtain ⟨-, -, facing⟩ := broken
    exact .inl ⟨_, _, facing⟩
  | hindered _ _ hindered => exact hindered.facing_or_stuck sound

end Halt

namespace Sound

variable {ps : List Program} {m : Machine}

/-- What comes of a step of a sound machine. -/
theorem step_result (h : Sound ps m) (settled : Settled m) : Step m (Machine.step m) := by
  obtain ⟨m₁, promoted, promotion⟩ := h.promote_works
  have h₁ := h.works promotion.works
  have settled₁ := promotion.settled h settled
  rcases h₁.occupy_cases with ⟨key, m₂, run, occupied⟩ | ⟨run, idle, nobody⟩
  · have runs := occupied.runs settled₁
    rw [Machine.step_eq promoted run, Machine.proceed_of_busy runs.1, bind_apply]
    rcases (h₁.works occupied.works).burst_cases runs with
      ⟨m₃, m₄, m', -, burst, stretch, departure, same⟩ | ⟨fault, m', -, burst, halt⟩
    · rw [burst]
      exact .turn promotion occupied ⟨stretch, departure, same⟩
    · rw [burst]
      exact .fault promotion occupied halt
  · rw [Machine.step_eq promoted run, Machine.proceed_of_idle idle]
    exact .idle promotion idle nobody rfl

/-- A step consists of moves, also if it ends in a fault, and leaves the running process alone with
the processor, unless it was blocked and the pause after this was refused. -/
theorem after_step (h : Sound ps m) (settled : Settled m) :
    Moves m (after Machine.step m) ∧ (Settled (after Machine.step m) ∨
      ∃ key p r, Stuck (after Machine.step m) key p r) := by
  have step := h.step_result settled
  unfold after
  cases result : Machine.step m with
  | ok ran m' =>
    rw [result] at step
    cases step with
    | @idle m₁ _ promotion idle nobody same =>
      have tick := Move.idle idle nobody fun _ _ => promotion.early
      refine ⟨(promotion.works.moves.tail tick).tail (.work (.outside same)), .inl (.of_idle ?_)⟩
      exact (Machine.current_of_inside same).trans idle
    | turn promotion occupied turn =>
      have works : Works m m' := (promotion.works.trans occupied.works).trans turn.works
      exact ⟨works.moves, .inl turn.settled⟩
  | error fault m' =>
    rw [result] at step
    cases step with
    | fault promotion occupied halt =>
      have works : Works m _ := promotion.works.trans occupied.works
      refine ⟨works.moves.trans halt.moves, ?_⟩
      rcases halt.facing_or_stuck (h.works works) with ⟨p, i, facing⟩ | stuck
      · exact .inl facing.settled
      · exact .inr ⟨_, stuck⟩

/-- The beginning of a step consists of moves. -/
theorem after_beginStep (h : Sound ps m) (settled : Settled m) (k : Nat) :
    Moves m (after (Machine.beginStep k) m) := by
  obtain ⟨m₁, promoted, promotion⟩ := h.promote_works
  have h₁ := h.works promotion.works
  rcases h₁.occupy_cases with ⟨key, m₂, run, occupied⟩ | ⟨run, idle, nobody⟩
  · have runs := occupied.runs (promotion.settled h settled)
    have works : Works m m₂ := promotion.works.trans occupied.works
    rw [Machine.after_beginStep_of_busy promoted run runs.1]
    rcases (h.works works).runInstructions_cases runs k with
      ⟨m', result, stretch⟩ | ⟨fault, m', result, halt⟩
    · rw [after_of_ok result]
      exact works.moves.trans stretch.works.moves
    · rw [after_of_error result]
      exact works.moves.trans halt.moves
  · rw [Machine.after_beginStep_of_idle promoted run idle]
    exact promotion.works.moves

/-- A step that does not end in a fault leaves the processor idle. -/
theorem idle_of_step (h : Sound ps m) (settled : Settled m) {ran : Bool} {m' : Machine}
    (took : Machine.step m = .ok ran m') : m'.current = none := by
  have step := h.step_result settled
  rw [took] at step
  cases step with
  | idle promotion idle nobody same => exact (Machine.current_of_inside same).trans idle
  | turn promotion occupied turn => exact turn.idle

end Sound

end RoundRobin
