import RoundRobin.Proofs.Failure
import RoundRobin.Proofs.Finality
import RoundRobin.Proofs.Rotation

/-!
# Resuming after a fault

What a step leaves behind that ends in a fault, other than that of a pause. A process completed some
instructions of its turn, and the machine is as it was after those, but for what shows of the one that
was refused (`Interruption`): it is announced if instructions are shown, and input is asked for if it
needs some. The process keeps the processor and faces that instruction. Whatever is loaded or given from
outside then, the next step begins with the same instruction, and nobody is dispatched
(`Reachable.interrupted`).
-/

namespace RoundRobin

open Operation

/-! ### A process that has the processor keeps it -/

/-- A process is known by what it is apart from its station, and by its station. -/
theorem ControlBlock.eq_of_body {p p' : ControlBlock} {st : Station} (body : p'.body = p.body)
    (stands : p.station? = some st) (stands' : p'.station? = some st) : p' = p := by
  obtain ⟨state, waiting⟩ := (station?_eq_some_iff p st).1 stands
  obtain ⟨state', waiting'⟩ := (station?_eq_some_iff p' st).1 stands'
  cases p
  cases p'
  simp only [ControlBlock.body, mk.injEq] at body state waiting state' waiting' ⊢
  simp [body, state, waiting, state', waiting']

/-- A promotion does not concern the process that has the processor. -/
theorem Promotion.facing {ps : List Program} {m m' : Machine} {key : Int} {p : ControlBlock}
    {i : Instruction} (h : Promotion m m') (sound : Sound ps m) (facing : Facing m key p i) :
    Facing m' key p i := by
  have orderly := (sound.works h.works).orderly
  have stands := sound.orderly.station?_of_running facing.known facing.runs
  have waits : key ∈ m'.scheduler.queue .running := by
    rw [h.unmoved .running nofun nofun]
    exact sound.orderly.mem_queue_of_station facing.known stands
  obtain ⟨p', known', stands'⟩ := orderly.process?_of_mem waits
  obtain ⟨q, known, body⟩ := Scheduler.process?_of_body? (h.body? key) known'
  cases facing.known.symm.trans known
  cases ControlBlock.eq_of_body body stands stands'
  refine ⟨h.current.trans facing.current, known', facing.runs, ?_⟩
  rw [Machine.memory_of_inside h.frame]
  exact facing.instruction

/-- A process faces the same instruction as long as programs are loaded and the outside changes. -/
theorem Onward.facing {ps : List Program} {m m' : Machine} {key : Int} {p : ControlBlock}
    {i : Instruction} (onward : Onward m [] m') (h : Reachable ps m) (facing : Facing m key p i) :
    (∃ ps', Reachable ps' m') ∧ Facing m' key p i ∧ m'.metrics = m.metrics := by
  generalize steps : ([] : List Machine) = l at onward
  induction onward with
  | refl => exact ⟨⟨ps, h⟩, facing, rfl⟩
  | @load l m' before lines release ih =>
    obtain ⟨⟨ps', reached⟩, facing', metrics⟩ := ih steps
    refine ⟨reached.createProcess lines release, ?_⟩
    have sound : Sound ps' m' := (Passed.reached reached).sound_of_runs facing'.busy
    rcases m'.after_createProcess_cases lines release with ⟨time, m₁, load, same⟩ | unchanged
    · refine ⟨(facing'.load sound load).of_inside same, ?_⟩
      rw [Machine.metrics_of_inside same, ← metrics]
      obtain ⟨-, -, -⟩ := load
      rfl
    · rw [unchanged]
      exact ⟨facing', metrics⟩
  | outside before storage inputs ih =>
    obtain ⟨⟨ps', reached⟩, facing', metrics⟩ := ih steps
    exact ⟨⟨ps', reached.outside storage inputs⟩, facing'.of_inside rfl, metrics⟩
  | step before took ih =>
    cases (List.append_eq_nil_iff.1 steps.symm).2

/-- The next step begins with an instruction that the process under a key faces. Nobody is dispatched
for it, and no switch is counted. -/
def Machine.Resumes (m : Machine) (key : Int) (p : ControlBlock) (i : Instruction) : Prop :=
  ∃ m₁ slot, Machine.promote m = .ok () m₁ ∧ Machine.occupy m₁ = .ok () m₁ ∧ Facing m₁ key p i ∧
    (∀ n, Machine.beginStep (n + 1) m
      = (do if ← Machine.perform key i then Machine.runInstructions key n : Operation Unit)
        (m₁.announced p slot)) ∧
    Machine.step m = (do let _ ← Machine.burst; return true : Operation Bool) m₁ ∧
    (after Machine.step m).metrics.contextSwitches = m.metrics.contextSwitches

namespace Sound

variable {ps : List Program} {m : Machine} {key : Int} {p : ControlBlock} {i : Instruction}

/-- A turn counts no switch, also if it ends in a fault. -/
theorem contextSwitches_after_burst (h : Sound ps m) (runs : m.Runs key) :
    (after Machine.burst m).metrics.contextSwitches = m.metrics.contextSwitches := by
  rcases h.burst_cases runs with
    ⟨m₁, m₂, m', -, burst, stretch, departure, same⟩ | ⟨fault, m', -, burst, halt⟩
  · obtain ⟨k, -, spell, -, -⟩ := stretch.spell h
    rw [after_of_ok burst, Machine.metrics_of_inside same, departure.metrics]
    dsimp only
    rw [Metrics.logSlice_frame, spell.metrics, Metrics.spent]
  · obtain ⟨k, -, spell⟩ := halt.spell h
    rw [after_of_error burst, spell.metrics, Metrics.spent]

theorem resumes (h : Sound ps m) (facing : Facing m key p i) : m.Resumes key p i := by
  obtain ⟨m₁, promoted, promotion⟩ := h.promote_works
  have h₁ := h.works promotion.works
  have facing₁ := promotion.facing h facing
  have busy := Machine.occupy_of_busy facing₁.current
  obtain ⟨⟨slot, i'⟩, at_pc, same⟩ := Option.map_eq_some_iff.1 facing₁.instruction
  cases same
  have step : Machine.step m = (do let _ ← Machine.burst; return true : Operation Bool) m₁ := by
    rw [Machine.step_eq promoted busy, Machine.proceed_of_busy facing₁.current]
  refine ⟨m₁, slot.value, promoted, busy, facing₁, fun n => ?_, step, ?_⟩
  · rw [Machine.beginStep_of_busy promoted busy facing₁.current,
      Machine.runInstructions_next facing₁.known at_pc]
  · have runs : m₁.Runs key := ⟨facing₁.current, p, facing₁.known, facing₁.runs⟩
    have counted := h₁.contextSwitches_after_burst runs
    unfold after at counted ⊢
    rw [step, bind_apply]
    rw [promotion.metrics] at counted
    cases burst : Machine.burst m₁ with
    | ok key' m₂ =>
      rw [burst] at counted
      exact counted
    | error fault m₂ =>
      rw [burst] at counted
      exact counted

end Sound

/-! ### What an interrupted step has done -/

/-- What an instruction asks for. -/
def Instruction.prompt? : Instruction → Option String
  | .assign name .input => some ("Please enter a value for " ++ name ++ ": ")
  | _ => none

/-- What shows of an instruction that is refused: its announcement, if instructions are shown, and its
prompt, if it has one. -/
def Machine.traces (m : Machine) (p : ControlBlock) (line : String) (i : Instruction) : List Event :=
  (if m.verbose then [.notice (.executing m.now p.pid p.pc line)] else [])
    ++ (i.prompt?.map Event.prompt).toList

theorem Machine.record_recordAll (m : Machine) (es : List Event) (e : Event) :
    (m.recordAll es).record e = m.recordAll (es ++ [e]) := by
  have log : (m.log ++ es).push e = m.log ++ (es ++ [e]) := Array.toList_inj.1 (by simp)
  exact congrArg (fun log => { m with log }) log

/-- A refused instruction leaves nothing but its traces. -/
theorem Refusal.frame {m m' : Machine} {p : ControlBlock} {line : String} {i : Instruction}
    {fault : Fault} (r : Refusal (m.announced p line) i fault m') :
    m' = m.recordAll (m.traces p line i) := by
  cases r with
  | input nothing =>
    rw [m.announced_eq, Machine.record_recordAll]
    rfl
  | @path _ path opens null =>
    have silent : i.prompt? = none := by
      cases i with
      | assign name source => cases source <;> first | rfl | cases opens
      | _ => rfl
    rw [m.announced_eq, Machine.traces, silent]
    simp

/-- A step was interrupted by a fault. Before it, the process under the key completed a number of
instructions of its turn, fewer than the quantum; the first machine is the one after them, and the
second is left behind. -/
structure Interruption (m : Machine) (key : Int) (k : Nat) (p : ControlBlock) (line : String)
    (i : Instruction) (fault : Fault) (m₁ m' : Machine) : Prop where
  short : k < m.quantum
  begun : Machine.beginStep k m = .ok () m₁
  length : m.executions.length = k
  completed : ∀ e ∈ m.executions, e.key = key ∧ e.blocked = false
  /-- Nothing was done since but to show what was refused. -/
  frame : m' = m₁.recordAll (m₁.traces p line i)
  now : m'.now = m.now + k
  active : m'.metrics.activeTicks = m.metrics.activeTicks + k
  total : m'.metrics.totalTicks = m.metrics.totalTicks + k
  /-- The process was dispatched in this step if nobody had the processor. -/
  switches : m'.metrics.contextSwitches
    = m.metrics.contextSwitches + if m.current = none then 1 else 0
  own : ∃ p₀, m.scheduler.process? key = some p₀ ∧ p.executed = p₀.executed + k ∧ p.pc = p₀.pc + k
  facing : Facing m' key p i
  running : m'.scheduler.running = [key]
  cause : Escapes m' fault

namespace Completions

variable {ps : List Program} {key : Int} {n : Nat} {m m' : Machine}

/-- Each completed instruction is counted and left behind. -/
theorem own (c : Completions key n m m') (h : Sound ps m) {p : ControlBlock}
    (known : m.scheduler.process? key = some p) : ∃ p', m'.scheduler.process? key = some p' ∧
      p'.executed = p.executed + n ∧ p'.pc = p.pc + n := by
  induction c generalizing p with
  | none same =>
    refine ⟨p, ?_, (Int.add_zero _).symm, (Int.add_zero _).symm⟩
    rw [Machine.scheduler_of_inside same]
    exact known
  | more completion same _ ih =>
    obtain ⟨bound, known₁⟩ := completion.known h
    cases completion.facing.known.symm.trans known
    rw [← Machine.scheduler_of_inside same] at known₁
    obtain ⟨p', known', executed, pc⟩ := ih ((h.complete completion).of_inside same) known₁
    refine ⟨p', known', ?_, ?_⟩
    · rw [executed]
      push_cast
      omega
    · rw [pc]
      push_cast
      omega

end Completions

/-- Who takes the processor keeps what was counted of it and where it stands. -/
theorem Occupied.own {key : Int} {m m' : Machine} (o : Occupied key m m') {p' : ControlBlock}
    (known' : m'.scheduler.process? key = some p') : ∃ p, m.scheduler.process? key = some p ∧
      p'.executed = p.executed ∧ p'.pc = p.pc := by
  cases o with
  | busy => exact ⟨p', known', rfl, rfl⟩
  | @dispatched p m₁ _ dispatch same =>
    have known₁ := dispatch.process?_self
    rw [← Machine.scheduler_of_inside same, known'] at known₁
    cases known₁
    obtain ⟨-, -, known, -⟩ := dispatch
    exact ⟨p, known, rfl, rfl⟩

/-- What a turn executes that is refused an instruction are those that it completed before. -/
theorem Refused.executions {ps : List Program} {key : Int} {fault : Fault} {k n : Nat}
    {m m₁ m' : Machine} (r : Refused key fault m' k m m₁) (h : Sound ps m) (short : k < n) :
    (Machine.turnExecutions key n m).length = k ∧
      ∀ e ∈ Machine.turnExecutions key n m, e.key = key ∧ e.blocked = false := by
  induction r generalizing n with
  | @next p slot i m facing at_pc performed refusal =>
    obtain ⟨n, rfl⟩ := Nat.exists_eq_add_one.2 short
    have ends : ∀ n, after (Machine.runInstructions key (n + 1)) m = m' := by
      intro n
      have failed : Machine.runInstructions key (n + 1) m = .error fault m' := by
        rw [Machine.runInstructions_next facing.known at_pc, bind_apply, performed]
      exact after_of_error failed
    have same : m'.inside = m.inside := refusal.inside.trans (m.announced_inside p slot.value)
    rw [Machine.turnExecutions_of_over ends, Machine.executed?_eq_none same]
    simp
  | @later p slot i k m m₁ m₂ m₃ known at_pc performed completion same rest ih =>
    obtain ⟨n, rfl⟩ := Nat.exists_eq_add_one.2 (Nat.zero_lt_of_lt short)
    have on : ∀ n, after (Machine.runInstructions key (n + 1)) m
        = after (Machine.runInstructions key n) m₂ := by
      intro n
      unfold after
      rw [Machine.runInstructions_next known at_pc, bind_apply, performed]
      rfl
    obtain ⟨length, all⟩ := ih ((h.complete completion).of_inside same) (Nat.lt_of_succ_lt_succ short)
    rw [Machine.turnExecutions_of_on on, Machine.executed?_of_inside same,
      Machine.executed?_of_completion h completion]
    simp only [Option.toList_some, List.singleton_append, List.length_cons, List.mem_cons,
      forall_eq_or_imp]
    exact ⟨congrArg (· + 1) length, ⟨trivial, trivial⟩, all⟩

namespace Sound

variable {ps : List Program} {m m' : Machine} {fault : Fault}

/-- A step that ends in a fault, other than that of a pause, is interrupted at an instruction of its
turn. -/
theorem interruption (h : Sound ps m) (settled : Settled m)
    (failed : Machine.step m = .error fault m') (other : ¬fault.isPause) :
    ∃ key k p line i m₁, Interruption m key k p line i fault m₁ m' := by
  have escapes := (h.escapes_of_step settled failed).resolve_right fun pauses => other pauses.1
  obtain ⟨key, m₁, m₂, k, m₃, promoted, promotion, occupied_run, occupied, short, refused⟩ :=
    (h.refused_of_step settled failed).resolve_right fun pauses => other pauses.1
  have h₁ := h.works promotion.works
  have h₂ := h₁.works occupied.works
  have busy := (occupied.runs (promotion.settled h settled)).1
  obtain ⟨run, done⟩ := refused.run
  obtain ⟨p, slot, i, facing, at_pc, refusal⟩ := refused.refusal
  obtain ⟨length, completed⟩ := refused.executions h₂ short
  rw [← Machine.executions_of_busy promoted occupied_run busy] at length completed
  have spell := done.spell h₂
  have frame := refusal.frame
  have same : m'.inside = m₃.inside := by rw [frame]; rfl
  have metrics : m'.metrics = m₂.metrics.spent k :=
    (Machine.metrics_of_inside same).trans spell.metrics
  rw [occupied.metrics, promotion.metrics, promotion.current] at metrics
  have facing' := facing.of_inside same
  have sound' : Sound ps m' := (h₂.works done.works).of_inside same
  refine ⟨key, k, p, slot.value, i, m₃, ?_, ?_, length, completed, frame, ?_, ?_, ?_, ?_, ?_,
    facing', ?_, escapes⟩
  · omega
  · rw [Machine.beginStep_of_busy promoted occupied_run busy, run]
  · rw [Machine.now_of_inside same, spell.now, occupied.now, promotion.now]
  · rw [metrics, Metrics.spent]
  · rw [metrics, Metrics.spent]
  · rw [metrics, Metrics.spent]
  · obtain ⟨p₂, known₂⟩ := (h₂.processor.current key busy).imp fun _ h => h.1
    obtain ⟨p₁, known₁, executed₁, pc₁⟩ := occupied.own known₂
    obtain ⟨p₀, known₀, body⟩ := Scheduler.process?_of_body? (promotion.body? key) known₁
    obtain ⟨p₃, known₃, executed₃, pc₃⟩ := done.own h₂ known₂
    cases facing.known.symm.trans known₃
    have executed₀ := ControlBlock.executed_of_body body
    have pc₀ : p₁.pc = p₀.pc := (congrArg ControlBlock.pc body :)
    exact ⟨p₀, known₀, by omega, by omega⟩
  · have settled' : Settled m' := by
      intro other current
      cases facing'.current.symm.trans current
      exact ⟨p, facing'.known, facing'.runs⟩
    exact (sound'.queue_running settled').trans (by rw [facing'.current]; rfl)

end Sound

/-- Wherever requests lead, a step that ends in a fault, other than that of a pause, leaves the machine
as it was after the instructions that were completed in it, but for what shows of the one that was
refused. The process that was refused is running, alone with the processor, and faces that instruction.
Whatever is loaded or comes from outside then, the next step begins with this instruction, and nobody is
dispatched. -/
theorem Reachable.interrupted {ps : List Program} {m m' : Machine} {fault : Fault}
    (h : Reachable ps m) (failed : Machine.step m = .error fault m') (other : ¬fault.isPause) :
    ∃ key k p line i m₁, Interruption m key k p line i fault m₁ m' ∧
      ∀ m₂, Onward m' [] m₂ → m₂.Resumes key p i := by
  have interrupted : ∃ key k p line i m₁, Interruption m key k p line i fault m₁ m' := by
    obtain ⟨s, kept⟩ := h.kept
    cases kept with
    | clear sound settled => exact sound.interruption settled failed other
    | crowded sound stuck same =>
      obtain ⟨_, _, _, -, -, pauses, result, -⟩ := stuck.step sound same
      cases failed.symm.trans result
      exact absurd pauses other
  obtain ⟨key, k, p, line, i, m₁, interruption⟩ := interrupted
  have reached : Reachable ps m' := after_of_error failed ▸ h.step
  refine ⟨key, k, p, line, i, m₁, interruption, fun m₂ onward => ?_⟩
  obtain ⟨⟨ps', reached'⟩, facing, -⟩ := onward.facing reached interruption.facing
  exact ((Passed.reached reached').sound_of_runs facing.busy).resumes facing

/-- A process printed once and then asks for a value when no input is left. When it is given some,
the next step begins with the same instruction. -/
theorem Reachable.interrupted_asking : ∃ m fault m' key p line i m₁,
    Reachable [⟨["print x", "assign x input", "print x"], 0⟩] m ∧
    Machine.step m = .error fault m' ∧ ¬fault.isPause ∧ Interruption m key 1 p line i fault m₁ m' ∧
    (m'.fed m'.storage ["7"]).Resumes key p i := by
  have made := Reachable.fresh 5 10 (by decide) (by decide)
  have asks := made.after_createProcess ["print x", "assign x input", "print x"] 0 (by decide)
    (by decide)
  obtain ⟨fault, failed⟩ := error_after Machine.step (after
    (Machine.createProcess ["print x", "assign x input", "print x"] (.whole 0))
    (Machine.fresh 5 10)) (by decide +kernel)
  have rests : Machine.Rests (after
    (Machine.createProcess ["print x", "assign x input", "print x"] (.whole 0))
    (Machine.fresh 5 10)) := by decide +kernel
  obtain ⟨s, kept⟩ := asks.kept
  have other : ¬fault.isPause := by
    rcases kept.escapes_of_step failed with escapes | ⟨-, restless⟩
    · cases escapes <;> decide
    · exact absurd rests restless
  obtain ⟨key, k, p, line, i, m₁, interruption, resumes⟩ := asks.interrupted failed other
  obtain rfl : k = 1 := interruption.length.symm.trans (by decide +kernel)
  exact ⟨_, fault, _, key, p, line, i, m₁, asks, failed, other, interruption,
    resumes _ (.outside .refl _ _)⟩

/-- If instructions are shown, the prompt is not all that shows of one that is refused. -/
theorem Reachable.interrupted_shown : ∃ m fault m',
    Reachable [⟨["assign x input"], 0⟩] m ∧ m.verbose ∧ m.executions = [] ∧
    Machine.step m = .error fault m' ∧
    (m'.log.toList.drop (after (Machine.beginStep 0) m).log.size).map Event.shown?
      = [some (.output, "[EXEC] t=0 PID 1 @0: assign x input\n"),
        some (.output, "Please enter a value for x: ")] ∧
    ¬(m'.log = (after (Machine.beginStep 0) m).log ∨
      ∃ message, m'.log = (after (Machine.beginStep 0) m).log.push (.prompt message)) := by
  have made : Reachable [] ({ Machine.fresh 2 10 with verbose := true } : Machine) :=
    .create (show Machine.create? (.whole 2) 10 true = .ok _ from rfl)
  have asks := made.after_createProcess ["assign x input"] 0 (by decide) (by decide)
  obtain ⟨fault, failed⟩ := error_after Machine.step (after
    (Machine.createProcess ["assign x input"] (.whole 0))
    { Machine.fresh 2 10 with verbose := true }) (by decide +kernel)
  refine ⟨_, fault, _, asks, by decide +kernel, by decide +kernel, failed, by decide +kernel, ?_⟩
  have two : (after Machine.step (after (Machine.createProcess ["assign x input"] (.whole 0))
      { Machine.fresh 2 10 with verbose := true })).log.size
    = (after (Machine.beginStep 0) (after (Machine.createProcess ["assign x input"] (.whole 0))
      { Machine.fresh 2 10 with verbose := true })).log.size + 2 := by decide +kernel
  rintro (same | ⟨message, same⟩)
  · rw [same] at two
    omega
  · rw [same, Array.size_push] at two
    omega

end RoundRobin
