import RoundRobin.Proofs.Execution
import RoundRobin.Proofs.Forecast
import RoundRobin.Proofs.Position

/-!
# Whole turns

A turn that does not end in a fault goes as it was forecast (`Sound.wholeTurn`). Its instructions are
executed one after the other, of which the first is either served or refused, and the forecast for the
others is that of the machine after it (`Plays`). Then the process leaves the processor. Where it goes is
decided by its state and by what it faces, and not by why the turn ended, so it has to be shown that both
agree (`Plays.wholeTurn_of_blocks`, `Plays.wholeTurn_of_runs`).
-/

namespace RoundRobin

open Operation

/-- An instruction with the process that executed it and its address. -/
def Execution.place (e : Execution) : Int × Int × Instruction := (e.key, e.address, e.instruction)

/-- The given instructions as a process executes them from an address on. -/
def Instruction.placed (key address : Int) (is : List Instruction) : List (Int × Int × Instruction) :=
  is.mapIdx fun j i => (key, address + j, i)

theorem Instruction.placed_cons (key address : Int) (i : Instruction) (rest : List Instruction) :
    placed key address (i :: rest) = (key, address, i) :: placed key (address + 1) rest := by
  unfold placed
  rw [List.mapIdx_cons]
  refine congrArg₂ List.cons (by simp) (congrArg (rest.mapIdx ·) ?_)
  funext j i
  rw [Int.natCast_add, Int.natCast_one, Int.add_assoc, Int.add_comm 1]

/-- A process executes its instructions on the processor as forecast. -/
structure Plays (key : Int) (p : ControlBlock) (n : Nat) (ahead : List Instruction) (m m' : Machine) :
    Prop where
  spell : Spell key (m.scheduler.semaphores.turnLength n ahead) m m'
  executions : (m.turnExecutions key n).map Execution.place
    = Instruction.placed key p.pc (ahead.take (m.scheduler.semaphores.turnLength n ahead))
  ready : m'.scheduler.ready = m.scheduler.ready
    ++ m.scheduler.semaphores.woken (ahead.take (m.scheduler.semaphores.turnLength n ahead))
  blocks : m.scheduler.semaphores.turnBlocks n ahead → ∃ p' r, ∃ j : Nat,
    m'.scheduler.process? key = some p' ∧ p'.state = .blocked ∧ p'.blockedOn = .resource r ∧
      m.scheduler.semaphores.turnLength n ahead = j + 1 ∧ ahead[j]? = some (.semWait r) ∧
      p'.pc = p.pc + j
  runs : m.scheduler.semaphores.turnBlocks n ahead = false → ∃ p',
    m'.scheduler.process? key = some p' ∧ p'.state = .running ∧
      p'.pc = p.pc + m.scheduler.semaphores.turnLength n ahead

namespace Plays

variable {ps : List Program} {m m₁ m₂ m' : Machine} {key : Int} {p p₁ : ControlBlock}
  {i : Instruction} {r : Resource} {n : Nat} {rest : List Instruction}

/-- Nothing is executed in no time or with nothing ahead. -/
theorem of_none (known : m.scheduler.process? key = some p) (running : p.state = .running)
    {ahead : List Instruction} (none : m.scheduler.semaphores.turnLength n ahead = 0)
    (unblocked : m.scheduler.semaphores.turnBlocks n ahead = false)
    (nothing : m.turnExecutions key n = []) : Plays key p n ahead m m where
  spell := by
    rw [none]
    exact .of_inside rfl
  executions := by
    rw [none, nothing]
    rfl
  ready := by
    rw [none]
    exact (List.append_nil _).symm
  blocks := fun blocked => absurd (unblocked.symm.trans blocked) nofun
  runs := fun _ => ⟨p, known, running, by rw [none, Int.natCast_zero, Int.add_zero]⟩

theorem of_blocking (b : Blocking key p r m m₁) (same : m'.inside = m₁.inside)
    (halts : ∀ n, Machine.runInstructions key (n + 1) m = .ok () m') :
    Plays key p (n + 1) (.semWait r :: rest) m m' := by
  have one : m.scheduler.semaphores.turnLength (n + 1) (.semWait r :: rest) = 1 :=
    Semaphores.turnLength_cons_of_refused b.refused n
  have scheduler := Machine.scheduler_of_inside same
  have known := b.known
  rw [← scheduler] at known
  have executed := (Machine.executed?_of_inside same).trans (Machine.executed?_of_blocking b)
  have alone := Machine.turnExecutions_of_over (fun n => after_of_ok (halts n)) n
  exact {
    spell := by
      rw [one]
      exact (Spell.of_blocking b).trans (.of_inside same)
    executions := by
      rw [one, alone, executed, List.take_succ_cons, List.take_zero, Instruction.placed_cons]
      rfl
    ready := by
      rw [one, scheduler]
      exact (b.queue .ready nofun nofun).trans (List.append_nil _).symm
    blocks := fun _ => ⟨_, r, 0, known, rfl, rfl, one, rfl, (Int.add_zero _).symm⟩
    runs := fun unblocked =>
      absurd ((Semaphores.turnBlocks_cons_of_refused b.refused n).symm.trans unblocked) nofun }

/-- An instruction that completes is followed by the others. -/
theorem of_completion (h : Sound ps m) (c : Completion key p i m m₁) (same : m₂.inside = m₁.inside)
    (on : ∀ n, Machine.runInstructions key (n + 1) m = Machine.runInstructions key n m₂)
    (pc : p₁.pc = p.pc + 1) (later : Plays key p₁ n rest m₂ m') :
    Plays key p (n + 1) (i :: rest) m m' := by
  have scheduler := Machine.scheduler_of_inside same
  have semaphores : m₂.scheduler.semaphores = m.scheduler.semaphores.serve i := by
    rw [scheduler, c.semaphores]
  have ready : m₂.scheduler.ready = m.scheduler.ready ++ m.scheduler.semaphores.wakes i := by
    rw [scheduler, c.ready_eq]
  have length : m.scheduler.semaphores.turnLength (n + 1) (i :: rest)
      = m₂.scheduler.semaphores.turnLength n rest + 1 := by
    rw [semaphores]
    exact Semaphores.turnLength_cons_of_served c.served n
  have blocks : m.scheduler.semaphores.turnBlocks (n + 1) (i :: rest)
      = m₂.scheduler.semaphores.turnBlocks n rest := by
    rw [semaphores]
    exact Semaphores.turnBlocks_cons_of_served c.served n
  have executed := (Machine.executed?_of_inside same).trans (Machine.executed?_of_completion h c)
  have first : m.turnExecutions key (n + 1)
      = (Machine.executed? m m₂).toList ++ m₂.turnExecutions key n :=
    Machine.turnExecutions_of_on (fun n => by
      unfold after
      rw [on]) n
  exact {
    spell := by
      rw [length, Nat.add_comm]
      exact ((Spell.of_completion h c).trans (.of_inside same)).trans later.spell
    executions := by
      rw [length, first, executed, List.take_succ_cons, Instruction.placed_cons, ← pc,
        ← later.executions]
      rfl
    ready := by
      rw [length, later.ready, ready, List.take_succ_cons, Semaphores.woken, ← semaphores,
        List.append_assoc]
    blocks := fun blocked => by
      rw [blocks] at blocked
      obtain ⟨p', r, j, known, state, waits, last, wait, there⟩ := later.blocks blocked
      exact ⟨p', r, j + 1, known, state, waits, by rw [length, last], wait, by omega⟩
    runs := fun unblocked => by
      rw [blocks] at unblocked
      obtain ⟨p', known, running, there⟩ := later.runs unblocked
      exact ⟨p', known, running, by omega⟩ }

end Plays

namespace Sound

variable {ps : List Program} {m m' : Machine} {key : Int} {p p' : ControlBlock} {i : Instruction}

/-- What is ahead of a process that went on. -/
theorem ahead_of_pc (h : Sound ps m) (h' : Sound ps m') (known : m.scheduler.process? key = some p)
    (known' : m'.scheduler.process? key = some p') {k : Nat} (pc : p'.pc = p.pc + k) :
    Program.ahead ps p'.position = (Program.ahead ps p.position).drop k := by
  obtain ⟨P, -, placed⟩ := h.layout.lookup known
  obtain ⟨P', -, placed'⟩ := h'.layout.lookup known'
  have offset : p'.offset = p.offset + k := by
    have low := placed.holds.lower_le_pc
    have lower := placed.lower
    have lower' := placed'.lower
    simp only [ControlBlock.offset]
    omega
  rw [h.position_eq known, h'.position_eq known', Program.ahead, Program.ahead, List.drop_drop, offset]

/-- The instruction that a process faces is the first ahead of it. -/
theorem ahead_of_facing (h : Sound ps m) (facing : Facing m key p i) :
    ∃ rest, Program.ahead ps p.position = i :: rest := by
  rw [← List.head?_eq_some_iff, h.head?_ahead facing.known]
  exact facing.instruction

/-- The instructions of a turn that do not end in a fault are executed as forecast. -/
theorem plays (h : Sound ps m) (runs : m.Runs key) (known : m.scheduler.process? key = some p)
    {n : Nat} (result : Machine.runInstructions key n m = .ok () m') :
    Plays key p n (Program.ahead ps p.position) m m' := by
  have running : p.state = .running := by
    obtain ⟨-, q, known', running⟩ := runs
    cases known.symm.trans known'
    exact running
  -- over the instructions still allowed; the forecast for the rest is that of the machine after the first
  induction n generalizing m p with
  | zero =>
    cases result
    exact .of_none known running (by simp) (by simp) rfl
  | succ n ih =>
    cases h.opening runs with
    | ends at_end halts =>
      cases (halts n).symm.trans result
      obtain ⟨q, known', nothing⟩ := at_end
      cases known.symm.trans known'
      have none : Program.ahead ps p.position = [] := by
        rw [← List.head?_eq_none_iff, h.head?_ahead known, nothing]
        rfl
      have alone := Machine.turnExecutions_of_over (fun n => after_of_ok (halts n)) n
      rw [none]
      exact .of_none known running (by simp) (by simp) (alone.trans (by
        rw [Machine.executed?_eq_none rfl]
        rfl))
    | fault facing same halts => cases (halts n).symm.trans result
    | hindered _ _ halts => cases (halts n).symm.trans result
    | @blocks q r m₁ m₂ _ blocking same halts =>
      cases (halts n).symm.trans result
      cases known.symm.trans blocking.facing.known
      obtain ⟨rest, ahead⟩ := h.ahead_of_facing blocking.facing
      rw [ahead]
      exact .of_blocking blocking same halts
    | @goes q i m₁ m₂ _ completion same on =>
      cases known.symm.trans completion.facing.known
      obtain ⟨rest, ahead⟩ := h.ahead_of_facing completion.facing
      have h₂ := (h.complete completion).of_inside same
      obtain ⟨bound, known₁⟩ := completion.known h
      rw [← Machine.scheduler_of_inside same] at known₁
      have later := ih h₂ ((completion.runs h).of_inside same) known₁ ((on n).symm.trans result) running
      rw [h.ahead_of_pc h₂ known known₁ (k := 1) rfl, ahead] at later
      rw [ahead]
      exact .of_completion h completion same on rfl later

end Sound

/-- A whole turn of a process, which executed a number of the instructions ahead of it and left the
process in a state. -/
structure WholeTurn (key : Int) (p : ControlBlock) (ahead : List Instruction) (k : Nat)
    (fate : ProcessState) (m m' : Machine) : Prop where
  executions : (m.turnExecutions key m.quantum.toNat).map Execution.place
    = Instruction.placed key p.pc (ahead.take k)
  now : m'.now = m.now + k
  activeTicks : m'.metrics.activeTicks = m.metrics.activeTicks + k
  totalTicks : m'.metrics.totalTicks = m.metrics.totalTicks + k
  idle : m'.current = none
  process : ∃ p', m'.scheduler.process? key = some p' ∧ p'.executed = p.executed + k ∧
    p'.state = fate ∧ (fate ≠ .blocked → p'.pc = p.pc + k) ∧
      (fate = .terminated → p'.endTime = some m'.now) ∧
      -- a process that is blocked stands in front of the last instruction that it executed
      (fate = .blocked → ∃ r, ∃ j : Nat, k = j + 1 ∧ ahead[j]? = some (.semWait r) ∧
        p'.blockedOn = .resource r ∧ p'.pc = p.pc + j)
  /-- The processes that were woken are ready before the process itself, if it is. -/
  ready : m'.scheduler.ready = m.scheduler.ready ++ m.scheduler.semaphores.woken (ahead.take k)
    ++ if fate = .ready then [key] else []

namespace WholeTurn

variable {ps : List Program} {m m₁ m₂ m' : Machine} {key : Int} {p : ControlBlock}
  {ahead : List Instruction}

/-- What the process itself and the ready queue are after a turn, the rest follows from. -/
theorem of_departure {k : Nat} {fate : ProcessState} {start : Int}
    (known : m.scheduler.process? key = some p)
    (executions : (m.turnExecutions key m.quantum.toNat).map Execution.place
      = Instruction.placed key p.pc (ahead.take k))
    (spell : Spell key k m m₁) (d : Departure key start m₁ m₂)
    (state : ∃ p', m₂.scheduler.process? key = some p' ∧ p'.state = fate ∧
      (fate ≠ .blocked → p'.pc = p.pc + k) ∧ (fate = .terminated → p'.endTime = some m₁.now) ∧
      (fate = .blocked → ∃ r, ∃ j : Nat, k = j + 1 ∧ ahead[j]? = some (.semWait r) ∧
        p'.blockedOn = .resource r ∧ p'.pc = p.pc + j))
    (ready : m₂.scheduler.ready = m.scheduler.ready ++ m.scheduler.semaphores.woken (ahead.take k)
      ++ if fate = .ready then [key] else []) :
    WholeTurn key p ahead k fate m m₂ := by
  obtain ⟨p₁, known₁, counted, -⟩ := spell.own p known
  obtain ⟨q₁, q₂, hq₁, hq₂, counted', -⟩ := d.leaves
  cases known₁.symm.trans hq₁
  obtain ⟨p₂, known₂, state⟩ := state
  cases known₂.symm.trans hq₂
  have metrics := d.metrics
  rw [spell.metrics, Metrics.logSlice_frame] at metrics
  have now : m₂.now = m₁.now := d.now
  have current : m₂.current = none := by cases d <;> rfl
  exact {
    executions
    now := now.trans spell.now
    activeTicks := by rw [metrics]; rfl
    totalTicks := by rw [metrics]; rfl
    idle := current
    process := ⟨_, known₂, counted'.trans counted, by rw [now]; exact state⟩
    ready }

theorem of_inside {k : Nat} {fate : ProcessState} (w : WholeTurn key p ahead k fate m m₁)
    (same : m'.inside = m₁.inside) : WholeTurn key p ahead k fate m m' where
  executions := w.executions
  now := (Machine.now_of_inside same).trans w.now
  activeTicks := Machine.metrics_of_inside same ▸ w.activeTicks
  totalTicks := Machine.metrics_of_inside same ▸ w.totalTicks
  idle := (Machine.current_of_inside same).trans w.idle
  process := by
    rw [Machine.scheduler_of_inside same, Machine.now_of_inside same]
    exact w.process
  ready := by
    rw [Machine.scheduler_of_inside same]
    exact w.ready

end WholeTurn

namespace Plays

variable {m m₁ m₂ : Machine} {key start : Int} {p : ControlBlock} {ahead : List Instruction}

/-- A process that was blocked leaves the processor as it is. -/
theorem wholeTurn_of_blocks (plays : Plays key p m.quantum.toNat ahead m m₁)
    (known : m.scheduler.process? key = some p) (d : Departure key start m₁ m₂)
    (blocks : m.scheduler.semaphores.turnBlocks m.quantum.toNat ahead) :
    WholeTurn key p ahead (m.scheduler.semaphores.turnLength m.quantum.toNat ahead) .blocked m m₂ := by
  obtain ⟨p₁, r, j, known₁, blocked, waits, last, wait, pc⟩ := plays.blocks blocks
  have stays : m₂.scheduler = m₁.scheduler := by
    cases d with
    | yield => rfl
    | preempt facing =>
      cases known₁.symm.trans facing.known
      exact absurd (blocked.symm.trans facing.runs) nofun
    | terminate _ known' running =>
      cases known₁.symm.trans known'
      exact absurd (blocked.symm.trans running) nofun
  refine .of_departure known plays.executions plays.spell d ?_ ?_
  · rw [stays]
    exact ⟨p₁, known₁, blocked, absurd rfl, nofun, fun _ => ⟨r, j, last, wait, waits, pc⟩⟩
  · rw [stays]
    exact plays.ready.trans (List.append_nil _).symm

/-- A process that still runs goes to the ready queue if something is left ahead of it, and else it
ends. -/
theorem wholeTurn_of_runs (plays : Plays key p m.quantum.toNat ahead m m₁)
    (known : m.scheduler.process? key = some p) (d : Departure key start m₁ m₂)
    (unblocked : m.scheduler.semaphores.turnBlocks m.quantum.toNat ahead = false)
    (left : ∀ p₁, m₁.scheduler.process? key = some p₁ →
      (m₁.memory.instructionSlot? p₁.pc).map Prod.snd
        = ahead[m.scheduler.semaphores.turnLength m.quantum.toNat ahead]?) :
    WholeTurn key p ahead (m.scheduler.semaphores.turnLength m.quantum.toNat ahead)
      (m.scheduler.semaphores.turnEnd m.quantum.toNat ahead) m m₂ := by
  obtain ⟨p₁, known₁, running, pc⟩ := plays.runs unblocked
  have next := left p₁ known₁
  cases id d with
  | yield _ known' blocked =>
    cases known₁.symm.trans known'
    exact absurd (running.symm.trans blocked) nofun
  | @preempt _ i s facing moved =>
    cases known₁.symm.trans facing.known
    have lt : m.scheduler.semaphores.turnLength m.quantum.toNat ahead < ahead.length :=
      (List.getElem?_eq_some_iff.1 (next.symm.trans facing.instruction)).1
    rw [Semaphores.turnEnd_of_lt unblocked lt]
    refine .of_departure known plays.executions plays.spell d
      ⟨_, moved.process?_self known₁, rfl, fun _ => pc, nofun, nofun⟩ ?_
    exact (moved.queue .ready).trans (congrArg (· ++ [key]) plays.ready)
  | @terminate _ s _ current known' _ at_end moved =>
    cases known₁.symm.trans known'
    rw [at_end] at next
    have all := Nat.le_antisymm (m.scheduler.semaphores.turnLength_le m.quantum.toNat ahead)
      (List.getElem?_eq_none_iff.1 next.symm)
    have ended := Scheduler.process?_amend_self known₁ (ControlBlock.ended m₁.now)
    have kept : s.queue .ready = (m₁.scheduler.amend key (ControlBlock.ended m₁.now)).queue .ready :=
      moved.queue_of_ne nofun nofun
    rw [Semaphores.turnEnd_of_eq unblocked all]
    refine .of_departure known plays.executions plays.spell d
      ⟨_, moved.process?_self ended, rfl, fun _ => pc, fun _ => rfl, nofun⟩ ?_
    rw [Scheduler.queue_amend] at kept
    exact kept.trans (plays.ready.trans (List.append_nil _).symm)

end Plays

/-- A turn that does not end in a fault goes as forecast. -/
theorem Sound.wholeTurn {ps : List Program} {m m' : Machine} {key pid : Int} {p : ControlBlock}
    (h : Sound ps m) (runs : m.Runs key) (known : m.scheduler.process? key = some p)
    (done : Machine.burst m = .ok pid m') :
    WholeTurn key p (Program.ahead ps p.position)
      (m.scheduler.semaphores.turnLength m.quantum.toNat (Program.ahead ps p.position))
      (m.scheduler.semaphores.turnEnd m.quantum.toNat (Program.ahead ps p.position)) m m' := by
  rcases h.burst_cases runs with
    ⟨m₁, m₂, m₃, result, burst, stretch, departure, same⟩ | ⟨_, _, _, failed, _⟩
  · cases burst.symm.trans done
    have plays := h.plays runs known result
    have h₁ := h.works stretch.works
    refine WholeTurn.of_inside ?_ same
    cases blocks : m.scheduler.semaphores.turnBlocks m.quantum.toNat (Program.ahead ps p.position) with
    | true =>
      rw [Semaphores.turnEnd_of_blocks blocks]
      exact plays.wholeTurn_of_blocks known departure blocks
    | false =>
      refine plays.wholeTurn_of_runs known departure blocks fun p₁ known₁ => ?_
      obtain ⟨p₁', known₁', -, pc⟩ := plays.runs blocks
      cases known₁.symm.trans known₁'
      rw [← h₁.head?_ahead known₁, h.ahead_of_pc h₁ known known₁ pc, List.head?_drop]
  · cases failed.symm.trans done

/-! ### From the dispatch on -/

/-- The process under a key has just been given the idle processor, on its own or at the beginning of a
step. -/
inductive Dispatched (ps : List Program) (key : Int) : Machine → Prop where
  | alone {m m' : Machine} (before : Reachable ps m) (idle : m.current = none)
    (taken : Machine.dispatch m = .ok (some key) m') : Dispatched ps key m'
  | step {m m₁ m' : Machine} (before : Reachable ps m) (idle : m.current = none)
    (promoted : Machine.promote m = .ok () m₁) (occupied : Machine.occupy m₁ = .ok () m')
    (taken : m'.current = some key) : Dispatched ps key m'

/-- Nobody is given the processor if nobody is ready. -/
theorem Machine.dispatch_of_nil {m : Machine} (nobody : m.scheduler.queue .ready = []) :
    dispatch m = .ok none m := by
  have empty : m.scheduler.ready = [] := nobody
  have selected : m.scheduler.selectNext = (.ok none, m.scheduler) := by
    rw [Scheduler.selectNext, empty]
    rfl
  rw [dispatch, bind_apply, schedule_apply selected]
  rfl

namespace Dispatched

variable {ps : List Program} {m m' : Machine} {key : Int}

/-- A process that has just been given the processor runs. -/
theorem sound_runs (d : Dispatched ps key m) : Sound ps m ∧ m.Runs key := by
  cases d with
  | @alone m₀ _ before idle taken =>
    have h := (before.sound_of_idle idle).1
    cases front : m₀.scheduler.queue .ready with
    | nil => cases (Machine.dispatch_of_nil front).symm.trans taken
    | cons next rest =>
      obtain ⟨p, m₁, m₂, run, dispatch, same⟩ := h.dispatch_cases idle front
      cases run.symm.trans taken
      exact ⟨(h.dispatch dispatch).of_inside same, dispatch.runs.of_inside same⟩
  | @step m₀ m₁ _ before idle promoted occupied taken =>
    obtain ⟨h, settled⟩ := before.sound_of_idle idle
    have promotion := h.promotion promoted
    have h₁ := h.works promotion.works
    rcases h₁.occupy_cases with ⟨key', m₃, occupied', given⟩ | ⟨occupied', idle', -⟩
    · cases occupied.symm.trans occupied'
      have runs := given.runs (promotion.settled h settled)
      cases taken.symm.trans runs.1
      exact ⟨h₁.works given.works, runs⟩
    · cases occupied.symm.trans occupied'
      cases taken.symm.trans idle'

/-- A turn of a process that has just been given the processor executes no more instructions than its
quantum, none behind the end of its program, and none behind the first wait that is refused. It counts
as many ticks, and the process is blocked, terminated, or ready again behind those that it woke. -/
theorem turn_as_forecast (d : Dispatched ps key m) {p : ControlBlock} {P : Program} {pid : Int}
    (known : m.scheduler.process? key = some p) (loaded : Program.under ps key = some P)
    (done : Machine.burst m = .ok pid m') :
    WholeTurn key p (P.instructions.drop p.offset)
      (m.scheduler.semaphores.turnLength m.quantum.toNat (P.instructions.drop p.offset))
      (m.scheduler.semaphores.turnEnd m.quantum.toNat (P.instructions.drop p.offset)) m m' := by
  obtain ⟨h, runs⟩ := d.sound_runs
  have turn := h.wholeTurn runs known done
  rw [h.position_eq known, Program.ahead, Program.code_eq loaded] at turn
  exact turn

/-- A process wakes the one that waits for a file, takes the file again, and is then blocked on it by the
last instruction of its quantum. -/
theorem turn_as_forecast_contended : ∃ m m' p pid,
    Dispatched [⟨["semWait file", "print x", "print x", "semSignal file", "semWait file",
      "semWait file", "print x"], 0⟩, ⟨["semWait file"], 0⟩] 1 m ∧
    m.scheduler.process? 1 = some p ∧ Machine.burst m = .ok pid m' ∧
    WholeTurn 1 p [.semSignal .file, .semWait .file, .semWait .file, .print "x"] 3 .blocked m m' ∧
    m'.scheduler.ready = [2] := by
  have made := Reachable.fresh 3 20 (by decide) (by decide)
  have one := made.after_createProcess ["semWait file", "print x", "print x", "semSignal file",
    "semWait file", "semWait file", "print x"] 0 (by decide) (by decide)
  have both := one.after_createProcess ["semWait file"] 0 (by decide) (by decide +kernel)
  have before := both.step.step
  have sound := (before.sound_of_idle (by decide +kernel)).1
  obtain ⟨-, -, m, taken, -⟩ := sound.dispatch_cases (by decide +kernel)
    (show Scheduler.queue _ .ready = [1] by decide +kernel)
  obtain rfl := after_of_ok taken
  have dispatched := Dispatched.alone before (by decide +kernel) taken
  obtain ⟨h, runs⟩ := dispatched.sound_runs
  obtain ⟨p, known, -⟩ := runs.2
  have offset : p.offset = 3 := Option.some.inj
    ((congrArg (Option.map ControlBlock.offset) known).symm.trans (by decide +kernel))
  rcases h.burst_cases runs with ⟨-, -, m', -, done, -⟩ | ⟨fault, m', -, failed, -⟩
  · have turn := dispatched.turn_as_forecast known rfl done
    have ahead : List.drop 3 (Program.instructions ⟨["semWait file", "print x", "print x",
        "semSignal file", "semWait file", "semWait file", "print x"], 0⟩)
        = [.semSignal .file, .semWait .file, .semWait .file, .print "x"] := by decide +kernel
    rw [offset, ahead] at turn
    refine ⟨_, m', p, 1, dispatched, known, done, ?_, turn.ready.trans (by decide +kernel)⟩
    convert turn using 1
    · decide +kernel
    · decide +kernel
  · exact absurd failed (ne_error_of_isOk (by decide +kernel))

end Dispatched

end RoundRobin
