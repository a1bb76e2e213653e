import RoundRobin.Proofs.Execute

/-!
# Turns

What comes of a turn on the processor. The process completes some instructions, one after the other
(`Completions`), until its quantum is used up, it is at its end, or it is blocked (`Stretch`), and
then it leaves the processor (`Turn`). A fault in an instruction ends the turn where it is
(`Broken`), and the process keeps the processor, in front of that instruction. This is so too if the
pause after the first instruction is refused (`Hindered`).
-/

namespace RoundRobin

open Operation

namespace Machine

/-- The process under a key has the processor and is running. -/
def Runs (m : Machine) (key : Int) : Prop :=
  m.current = some key ∧ ∃ p, m.scheduler.process? key = some p ∧ p.state = .running

/-- The process under a key stands at no instruction. -/
def AtEnd (m : Machine) (key : Int) : Prop :=
  ∃ p, m.scheduler.process? key = some p ∧ m.memory.instructionSlot? p.pc = none

theorem Runs.of_inside {m m' : Machine} {key : Int} (h : m.Runs key) (same : m'.inside = m.inside) :
    m'.Runs key := by
  rw [Runs, current_of_inside same, scheduler_of_inside same]
  exact h

theorem AtEnd.of_inside {m m' : Machine} {key : Int} (h : m.AtEnd key)
    (same : m'.inside = m.inside) : m'.AtEnd key := by
  rw [AtEnd, scheduler_of_inside same, memory_of_inside same]
  exact h

theorem now_of_inside {m m' : Machine} (same : m'.inside = m.inside) : m'.now = m.now := by
  rw [now, clock_of_inside same, now]

end Machine

/-- A process that faces an instruction has the processor. -/
theorem Facing.busy {m : Machine} {key : Int} {p : ControlBlock} {i : Instruction}
    (facing : Facing m key p i) : m.Runs key := ⟨facing.current, p, facing.known, facing.runs⟩

theorem Facing.of_inside {m m' : Machine} {key : Int} {p : ControlBlock} {i : Instruction}
    (h : Facing m key p i) (same : m'.inside = m.inside) : Facing m' key p i := by
  have scheduler := Machine.scheduler_of_inside same
  refine ⟨(Machine.current_of_inside same).trans h.current, ?_, h.runs, ?_⟩
  · rw [scheduler]
    exact h.known
  · rw [Machine.memory_of_inside same]
    exact h.instruction

/-! ### Some instructions in a row -/

/-- The process under a key completes a number of instructions, one after the other. -/
inductive Completions (key : Int) : Nat → Machine → Machine → Prop where
  | none {m m' : Machine} (same : m'.inside = m.inside) : Completions key 0 m m'
  | more {p : ControlBlock} {i : Instruction} {n : Nat} {m m₁ m₂ m' : Machine}
    (completion : Completion key p i m m₁) (same : m₂.inside = m₁.inside)
    (rest : Completions key n m₂ m') : Completions key (n + 1) m m'

namespace Completion

variable {ps : List Program} {m m' : Machine} {key : Int} {p : ControlBlock} {i : Instruction}

theorem facing (c : Completion key p i m m') : Facing m key p i := by
  obtain ⟨facing, -⟩ := c
  exact facing

theorem now (c : Completion key p i m m') : m'.now = m.now + 1 := by
  cases c
  rfl

theorem current (c : Completion key p i m m') : m'.current = m.current := by
  cases c
  rfl

theorem rests (c : Completion key p i m m') : m'.Rests ↔ m.Rests := by
  cases c
  rfl

/-- A process that completed an instruction still runs. -/
theorem runs (h : Sound ps m) (c : Completion key p i m m') : m'.Runs key := by
  obtain ⟨facing, effect⟩ := c
  obtain ⟨n, hn⟩ := h.process?_of_effect facing effect
  refine ⟨facing.current, _, Scheduler.process?_amend_self
    (Scheduler.process?_amend_self hn ControlBlock.counted) ControlBlock.advance, ?_⟩
  rw [ControlBlock.advance]
  split <;> exact facing.runs

end Completion

theorem Blocking.facing {key : Int} {p : ControlBlock} {r : Resource} {m m' : Machine}
    (b : Blocking key p r m m') : Facing m key p (.semWait r) := by
  obtain ⟨facing, -, -⟩ := b
  exact facing

theorem Blocking.now {key : Int} {p : ControlBlock} {r : Resource} {m m' : Machine}
    (b : Blocking key p r m m') : m'.now = m.now + 1 := by
  cases b
  rfl

theorem Blocking.current {key : Int} {p : ControlBlock} {r : Resource} {m m' : Machine}
    (b : Blocking key p r m m') : m'.current = m.current := by
  cases b
  rfl

namespace Completions

variable {ps : List Program} {m m' : Machine} {key : Int} {n : Nat}

theorem works (c : Completions key n m m') : Works m m' := by
  induction c with
  | none same => exact .single (.outside same)
  | more completion same _ ih => exact .head (.complete completion) (.head (.outside same) ih)

theorem now (c : Completions key n m m') : m'.now = m.now + n := by
  induction c with
  | none same => rw [Machine.now_of_inside same, Int.natCast_zero, Int.add_zero]
  | more completion same _ ih =>
    rw [ih, Machine.now_of_inside same, completion.now]
    omega

theorem current (c : Completions key n m m') : m'.current = m.current := by
  induction c with
  | none same => exact Machine.current_of_inside same
  | more completion same _ ih =>
    rw [ih, Machine.current_of_inside same, completion.current]

theorem runs (c : Completions key n m m') (h : Sound ps m) (runs : m.Runs key) : m'.Runs key := by
  induction c with
  | none same => exact runs.of_inside same
  | more completion same _ ih =>
    exact ih ((h.complete completion).of_inside same) ((completion.runs h).of_inside same)

end Completions

/-- The process under a key runs until it completed a number of instructions, is at its end, or is
blocked. -/
inductive Stretch (key : Int) (n : Nat) (m : Machine) : Machine → Prop where
  | stops {k : Nat} {m' : Machine} (done : Completions key k m m') (le : k ≤ n)
    (cause : k = n ∨ m'.AtEnd key) : Stretch key n m m'
  | blocks {k : Nat} {p : ControlBlock} {r : Resource} {m₁ m₂ m' : Machine}
    (done : Completions key k m m₁) (lt : k < n) (blocking : Blocking key p r m₁ m₂)
    (same : m'.inside = m₂.inside) : Stretch key n m m'

/-- The process under a key completed fewer than a number of instructions and faces the next. -/
inductive Broken (key : Int) (n : Nat) (m : Machine) : Machine → Prop where
  | intro {k : Nat} {p : ControlBlock} {i : Instruction} {m' : Machine}
    (done : Completions key k m m') (lt : k < n) (facing : Facing m' key p i) : Broken key n m m'

namespace Stretch

variable {m m₁ m₂ m' : Machine} {key : Int} {p : ControlBlock} {i : Instruction} {n : Nat}

theorem more (completion : Completion key p i m m₁) (same : m₂.inside = m₁.inside)
    (rest : Stretch key n m₂ m') : Stretch key (n + 1) m m' := by
  cases rest with
  | stops done le cause =>
    exact .stops (.more completion same done) (Nat.succ_le_succ le) (cause.imp_left (congrArg _))
  | blocks done lt blocking same' =>
    exact .blocks (.more completion same done) (Nat.succ_lt_succ lt) blocking same'

theorem works (s : Stretch key n m m') : Works m m' := by
  cases s with
  | stops done => exact done.works
  | blocks done _ blocking same => exact (done.works.tail (.block blocking)).tail (.outside same)

theorem current (s : Stretch key n m m') : m'.current = m.current := by
  cases s with
  | stops done => exact done.current
  | blocks done _ blocking same =>
    rw [Machine.current_of_inside same, blocking.current, done.current]

end Stretch

theorem Broken.more {m m₁ m₂ m' : Machine} {key : Int} {p : ControlBlock} {i : Instruction}
    {n : Nat} (completion : Completion key p i m m₁) (same : m₂.inside = m₁.inside)
    (rest : Broken key n m₂ m') : Broken key (n + 1) m m' := by
  obtain ⟨done, lt, facing⟩ := rest
  exact ⟨.more completion same done, Nat.succ_lt_succ lt, facing⟩

/-! ### Running instructions -/

/-- The instruction that the process under a key faces was executed, but the pause after it was
refused. -/
inductive Hindered (key : Int) (m : Machine) : Machine → Prop where
  | stalls {p : ControlBlock} {i : Instruction} {m₁ m' : Machine} (stall : Stall key p i m m₁)
    (same : m'.inside = m₁.inside) : Hindered key m m'
  | blocks {p : ControlBlock} {r : Resource} {m₁ m' : Machine} (blocking : Blocking key p r m m₁)
    (refused : ¬m.Rests) (same : m'.inside = m₁.inside) : Hindered key m m'

theorem Hindered.refused {key : Int} {m m' : Machine} (hindered : Hindered key m m') : ¬m.Rests := by
  cases hindered with
  | stalls stall same =>
    obtain ⟨facing, effect, refused⟩ := stall
    exact refused
  | blocks blocking refused same => exact refused

/-- An instruction that was executed is counted, but its process hindered, if the pause is refused. -/
theorem Outcome.hindered {m m' : Machine} {key : Int} {p : ControlBlock} {i : Instruction}
    {goesOn : Bool} (outcome : Outcome key p i m (.ok goesOn m')) (facing : Facing m key p i)
    (refused : ¬m.Rests) : Hindered key m (m'.charge key) := by
  cases outcome with
  | completed effect same =>
    exact .stalls ⟨facing, effect, refused⟩ (congrArg (fun m : Machine => m.charge key) same)
  | blocked waits used_up moved same =>
    subst waits
    exact .blocks ⟨facing, used_up, moved⟩ refused
      (congrArg (fun m : Machine => m.charge key) same)

/-- What comes of performing an instruction with its tick. -/
inductive Performed (key : Int) (p : ControlBlock) (i : Instruction) (m : Machine) :
    EStateM.Result Fault Machine Bool → Prop where
  | completed {m₁ m' : Machine} (rests : m.Rests) (completion : Completion key p i m m₁)
    (same : m'.inside = m₁.inside) : Performed key p i m (.ok true m')
  | blocked {r : Resource} {m₁ m' : Machine} (rests : m.Rests) (blocking : Blocking key p r m m₁)
    (same : m'.inside = m₁.inside) : Performed key p i m (.ok false m')
  | fault {fault : Fault} {m' : Machine} (same : m'.inside = m.inside) :
    Performed key p i m (.error fault m')
  | hindered {fault : Fault} {m' : Machine} (pauses : fault.isPause)
    (hindered : Hindered key m m') : Performed key p i m (.error fault m')

/-- How a number of instructions of the process under a key are ended by a fault. -/
inductive Halt (key : Int) (n : Nat) (fault : Fault) (m : Machine) : Machine → Prop where
  | broken {m' : Machine} (broken : Broken key n m m') : Halt key n fault m m'
  | hindered {m' : Machine} (some_left : 0 < n) (pauses : fault.isPause)
    (hindered : Hindered key m m') : Halt key n fault m m'

/-- An instruction is charged to its process, and then comes the pause. -/
theorem Machine.countInstruction_eq_pause (m : Machine) (key : Int) :
    countInstruction key m = pause (m.charge key) := by
  unfold countInstruction
  simp only [bind_apply, tick_apply, amend_apply, measure_apply]
  rfl

theorem Machine.countInstruction_eq {m : Machine} (rests : m.Rests) (key : Int) :
    countInstruction key m
      = .ok () (if m.delay.isZero then m.charge key else (m.charge key).record (.pause m.delay)) :=
  (m.countInstruction_eq_pause key).trans (pause_of_accepts rests)

/-- If the pause is refused, the instruction is counted all the same. -/
theorem Machine.countInstruction_of_refused {m : Machine} (refused : ¬m.Rests) (key : Int) :
    ∃ fault, fault.isPause ∧ countInstruction key m = .error fault (m.charge key) := by
  obtain ⟨fault, pauses, failed⟩ := pause_of_not_accepts (m := m.charge key) refused
  exact ⟨fault, pauses, (m.countInstruction_eq_pause key).trans failed⟩

theorem Machine.countInstruction_apply {m : Machine} (rests : m.Rests) (key : Int) :
    ∃ m', countInstruction key m = .ok () m' ∧ m'.inside = (m.charge key).inside := by
  refine ⟨_, countInstruction_eq rests key, ?_⟩
  split <;> rfl

theorem Machine.runInstructions_end {m : Machine} {key : Int} {p : ControlBlock}
    (known : m.scheduler.process? key = some p) (at_end : m.memory.instructionSlot? p.pc = none)
    (n : Nat) : runInstructions key (n + 1) m = .ok () m := by
  unfold runInstructions
  simp only [bind_apply, process_apply known, get_apply, at_end, pure_apply]

/-- The machine after a line that a process is about to execute was shown, if it is to be shown. -/
def Machine.announced (m : Machine) (p : ControlBlock) (line : String) : Machine :=
  if m.verbose then m.record (.notice (.executing m.now p.pid p.pc line)) else m

theorem Machine.recordAll_nil (m : Machine) : m.recordAll [] = m := by
  simp [recordAll]

theorem Machine.announced_eq (m : Machine) (p : ControlBlock) (line : String) : m.announced p line
    = m.recordAll (if m.verbose then [.notice (.executing m.now p.pid p.pc line)] else []) := by
  unfold announced
  by_cases verbose : m.verbose
  · rw [if_pos verbose, if_pos verbose]
    simp [record, recordAll]
  · rw [if_neg verbose, if_neg verbose, recordAll_nil]

theorem Machine.announced_cases (m : Machine) (p : ControlBlock) (line : String) :
    m.announced p line = m ∨ ∃ told, m.announced p line = m.record (.notice told) := by
  unfold announced
  split
  · exact .inr ⟨_, rfl⟩
  · exact .inl rfl

/-- The next instruction is announced and performed, and then come the others. -/
theorem Machine.runInstructions_next {m : Machine} {key : Int} {p : ControlBlock} {slot : Slot}
    {i : Instruction} (known : m.scheduler.process? key = some p)
    (at_pc : m.memory.instructionSlot? p.pc = some (slot, i)) (n : Nat) :
    runInstructions key (n + 1) m
      = (do if ← perform key i then runInstructions key n : Operation Unit)
        (m.announced p slot.value) := by
  have next : runInstructions key (n + 1) m = (do
      if m.verbose then say (.executing m.now p.pid p.pc slot.value)
      if ← perform key i then runInstructions key n : Operation Unit) m := by
    rw [runInstructions, bind_apply, process_apply known]
    dsimp only
    rw [bind_apply, get_apply]
    dsimp only
    rw [at_pc]
  rw [next, announced]
  by_cases verbose : m.verbose
  · rw [if_pos verbose, if_pos verbose]
    rfl
  · rw [if_neg verbose, if_neg verbose]

/-- Apart from what is shown of it, the next instruction is performed, and then the rest. -/
theorem Machine.runInstructions_succ {m : Machine} {key : Int} {p : ControlBlock} {slot : Slot}
    {i : Instruction} (known : m.scheduler.process? key = some p)
    (at_pc : m.memory.instructionSlot? p.pc = some (slot, i)) :
    ∃ m₀, (m₀ = m ∨ ∃ told, m₀ = m.record (.notice told)) ∧ ∀ n, runInstructions key (n + 1) m
      = (do if ← perform key i then runInstructions key n : Operation Unit) m₀ :=
  ⟨_, m.announced_cases p slot.value, runInstructions_next known at_pc⟩

/-- How a turn of the process under a key opens, however many instructions it may take. The process is at
its end, its instruction ends in a fault or blocks it, the pause after the instruction is refused, or it
completes the instruction and the turn goes on. -/
inductive Opening (key : Int) (m : Machine) : Prop where
  | ends (at_end : m.AtEnd key) (halts : ∀ n, Machine.runInstructions key (n + 1) m = .ok () m)
  | fault {p : ControlBlock} {i : Instruction} {fault : Fault} {m' : Machine}
    (facing : Facing m key p i) (same : m'.inside = m.inside)
    (halts : ∀ n, Machine.runInstructions key (n + 1) m = .error fault m')
  | hindered {fault : Fault} {m' : Machine} (pauses : fault.isPause) (hindered : Hindered key m m')
    (halts : ∀ n, Machine.runInstructions key (n + 1) m = .error fault m')
  | blocks {p : ControlBlock} {r : Resource} {m₁ m' : Machine} (rests : m.Rests)
    (blocking : Blocking key p r m m₁) (same : m'.inside = m₁.inside)
    (halts : ∀ n, Machine.runInstructions key (n + 1) m = .ok () m')
  | goes {p : ControlBlock} {i : Instruction} {m₁ m₂ : Machine} (rests : m.Rests)
    (completion : Completion key p i m m₁)
    (same : m₂.inside = m₁.inside)
    (on : ∀ n, Machine.runInstructions key (n + 1) m = Machine.runInstructions key n m₂)

namespace Sound

variable {ps : List Program} {m : Machine} {key : Int} {p : ControlBlock} {i : Instruction}

/-- What comes of performing the instruction that the running process faces, whatever was shown
before. -/
theorem performed (h : Sound ps m) (facing : Facing m key p i) {m₀ : Machine}
    (shown : m₀.inside = m.inside) : Performed key p i m (Machine.perform key i m₀) := by
  have outcome := ((h.of_inside shown).outcome_execute (facing.of_inside shown)).of_inside shown
  unfold Machine.perform
  rw [bind_apply]
  cases result : Machine.execute key i m₀ with
  | error fault m₁ =>
    rw [result] at outcome
    cases outcome with
    | fault same => exact .fault same
  | ok running m₁ =>
    have kept := (h.of_inside shown).rests_execute (facing.of_inside shown) result
    rw [result] at outcome
    dsimp only
    rw [bind_apply]
    by_cases rests : m.Rests
    · obtain ⟨m₂, counted, charged⟩ := Machine.countInstruction_apply
        (kept.2 ((Machine.rests_of_inside shown).2 rests)) key
      rw [counted]
      cases outcome with
      | completed effect same =>
        refine .completed rests ⟨facing, effect⟩ ?_
        have charged' := charged.trans (congrArg (fun m : Machine => m.charge key) same)
        exact congrArg (fun m : Machine => m.change key ControlBlock.advance) charged'
      | blocked waits used_up moved same =>
        subst waits
        exact .blocked rests ⟨facing, used_up, moved⟩
          (charged.trans (congrArg (fun m : Machine => m.charge key) same))
    · obtain ⟨fault, pauses, counted⟩ := Machine.countInstruction_of_refused
        (fun rests' => rests ((Machine.rests_of_inside shown).1 (kept.1 rests'))) key
      rw [counted]
      exact .hindered pauses (outcome.hindered facing rests)

/-- How the turn of the running process opens. -/
theorem opening (h : Sound ps m) (runs : m.Runs key) : Opening key m := by
  obtain ⟨current, p, known, running⟩ := runs
  cases at_pc : m.memory.instructionSlot? p.pc with
  | none => exact .ends ⟨p, known, at_pc⟩ (Machine.runInstructions_end known at_pc)
  | some slot =>
    obtain ⟨slot, i⟩ := slot
    obtain ⟨m₀, shown, run⟩ := Machine.runInstructions_succ known at_pc
    have same : m₀.inside = m.inside := by rcases shown with rfl | ⟨told, rfl⟩ <;> rfl
    have facing : Facing m key p i := ⟨current, known, running, by rw [at_pc]; rfl⟩
    have performed := h.performed facing same
    cases result : Machine.perform key i m₀ with
    | error fault m₁ =>
      rw [result] at performed
      cases performed with
      | fault same' => exact .fault facing same' fun n => by rw [run, bind_apply, result]
      | hindered pauses hindered =>
        exact .hindered pauses hindered fun n => by rw [run, bind_apply, result]
    | ok running m₁ =>
      rw [result] at performed
      cases performed with
      | blocked rests blocking same' =>
        exact .blocks rests blocking same' fun n => by
          rw [run, bind_apply, result]
          rfl
      | completed rests completion same' =>
        exact .goes rests completion same' fun n => by
          rw [run, bind_apply, result]
          rfl

/-- What comes of running at most a number of instructions. -/
theorem runInstructions_cases (h : Sound ps m) (runs : m.Runs key) (n : Nat) :
    (∃ m', Machine.runInstructions key n m = .ok () m' ∧ Stretch key n m m') ∨
      ∃ fault m', Machine.runInstructions key n m = .error fault m' ∧ Halt key n fault m m' := by
  induction n generalizing m with
  | zero => exact .inl ⟨m, rfl, .stops (.none rfl) (Nat.le_refl 0) (.inl rfl)⟩
  | succ n ih =>
    cases h.opening runs with
    | ends at_end halts =>
      exact .inl ⟨m, halts n, .stops (.none rfl) (Nat.zero_le _) (.inr at_end)⟩
    | fault facing same halts =>
      exact .inr ⟨_, _, halts n, .broken ⟨.none same, Nat.succ_pos n, facing.of_inside same⟩⟩
    | hindered pauses hindered halts =>
      exact .inr ⟨_, _, halts n, .hindered (Nat.succ_pos n) pauses hindered⟩
    | blocks _ blocking same halts =>
      exact .inl ⟨_, halts n, .blocks (.none rfl) (Nat.succ_pos n) blocking same⟩
    | goes rests completion same on =>
      rw [on]
      rcases ih ((h.complete completion).of_inside same) ((completion.runs h).of_inside same) with
        ⟨m', run, stretch⟩ | ⟨fault, m', run, halt⟩
      · exact .inl ⟨m', run, stretch.more completion same⟩
      · refine .inr ⟨fault, m', run, ?_⟩
        cases halt with
        | broken broken => exact .broken (broken.more completion same)
        | hindered some_left pauses hindered =>
          have rests' := (Machine.rests_of_inside same).2 (completion.rests.2 rests)
          exact absurd rests' hindered.refused

theorem stretch (h : Sound ps m) (runs : m.Runs key) {n : Nat} {m' : Machine}
    (ran : Machine.runInstructions key n m = .ok () m') : Stretch key n m m' := by
  rcases h.runInstructions_cases runs n with ⟨m₁, result, stretch⟩ | ⟨fault, m₁, result, -⟩
  · cases ran.symm.trans result
    exact stretch
  · cases ran.symm.trans result

end Sound

/-! ### Leaving the processor -/

/-- A slice shows in nothing but the slices. -/
theorem Metrics.logSlice_frame (x : Metrics) (s : Slice) :
    x.logSlice s = { x with slices := (x.logSlice s).slices } := by
  unfold logSlice
  split <;> rfl

namespace Departure

variable {m m' : Machine} {key start : Int}

theorem now (d : Departure key start m m') : m'.now = m.now := by
  cases d <;> rfl

theorem quantum (d : Departure key start m m') : m'.quantum = m.quantum := by
  cases d <;> rfl

/-- Whoever leaves the processor has its slice, and possibly its record. -/
theorem metrics (d : Departure key start m m') : m'.metrics
    = { m.metrics.logSlice ⟨key, start, m.now⟩ with completed := m'.metrics.completed } := by
  cases d <;> rfl

theorem body?_of_ne (d : Departure key start m m') {k : Int} (ne : k ≠ key) :
    m'.scheduler.body? k = m.scheduler.body? k := by
  cases d with
  | yield => rfl
  | preempt facing moved => exact moved.body?_eq k
  | terminate current known runs at_end moved recorded =>
    exact (moved.body?_eq k).trans (m.scheduler.body?_amend_of_ne ne _)

/-- A process that leaves the processor keeps its count and its start, and ends now if it ends. -/
theorem leaves (d : Departure key start m m') : ∃ p p', m.scheduler.process? key = some p ∧
    m'.scheduler.process? key = some p' ∧ p'.executed = p.executed ∧ p'.startTime = p.startTime ∧
      (m'.scheduler.queue .terminated = m.scheduler.queue .terminated ∨
        m'.scheduler.queue .terminated = m.scheduler.queue .terminated ++ [key] ∧
          p'.endTime = some m.now) := by
  cases d with
  | yield current known blocked => exact ⟨_, _, known, known, rfl, rfl, .inl rfl⟩
  | preempt facing moved =>
    exact ⟨_, _, facing.known, moved.process?_self facing.known, rfl, rfl,
      .inl (moved.queue_of_ne (by decide) (by decide))⟩
  | terminate current known runs at_end moved recorded =>
    have ended := Scheduler.process?_amend_self known (ControlBlock.ended m.now)
    have terminated := (moved.queue .terminated).trans (if_pos rfl)
    rw [Scheduler.queue_amend] at terminated
    exact ⟨_, _, known, moved.process?_self ended, rfl, rfl, .inr ⟨terminated, rfl⟩⟩

/-- A running process that leaves the processor at its end is terminated. -/
theorem terminated_of_atEnd (d : Departure key start m m') (runs : m.Runs key)
    (at_end : m.AtEnd key) :
    m'.scheduler.queue .terminated = m.scheduler.queue .terminated ++ [key] := by
  obtain ⟨-, p, known, running⟩ := runs
  obtain ⟨q, known', nothing⟩ := at_end
  cases known.symm.trans known'
  cases d with
  | yield current hq blocked =>
    cases known.symm.trans hq
    exact absurd (running.symm.trans blocked) (by decide)
  | preempt facing moved =>
    cases known.symm.trans facing.known
    have instruction := facing.instruction
    rw [nothing] at instruction
    cases instruction
  | terminate current hq running' nothing' moved recorded =>
    refine (moved.queue .terminated).trans ?_
    rw [if_pos rfl, Scheduler.queue_amend]

end Departure

/-- A turn of the process under a key, which had the processor already. -/
inductive Turn (key : Int) (m : Machine) : Machine → Prop where
  | intro {m₁ m₂ m' : Machine} (stretch : Stretch key m.quantum.toNat m m₁)
    (departure : Departure key m.now m₁ m₂) (same : m'.inside = m₂.inside) : Turn key m m'

theorem Turn.works {key : Int} {m m' : Machine} (turn : Turn key m m') : Works m m' := by
  obtain ⟨stretch, departure, same⟩ := turn
  exact (stretch.works.tail (.depart departure)).tail (.outside same)

/-- A process ends and is recorded, if it has started. -/
theorem Machine.terminate_apply {m : Machine} {key : Int} {p : ControlBlock} {record : Record}
    (known : ((m.scheduler.amend key (ControlBlock.ended m.now)).terminate key).process? key
      = some p) (recorded : Record.ofProcess? p = some record) :
    terminate key m = .ok () (({ m with
      scheduler := (m.scheduler.amend key (ControlBlock.ended m.now)).terminate key
      metrics := m.metrics.logRecord record } : Machine).record
        (.notice (.terminated p.pid m.now))) := by
  unfold terminate
  simp only [bind_apply, get_apply, amend_apply, reschedule_apply]
  rw [process_apply known]
  simp only [Metrics.logProcess, recorded]
  rfl

namespace Sound

variable {ps : List Program} {m : Machine} {key : Int} {p : ControlBlock}

/-- What comes of a process when it leaves the processor after a turn that began at a given time. -/
theorem leave_departs (h : Sound ps m) (current : m.current = some key) (start : Int) :
    ∃ m₁ m', Machine.leave key { m with metrics := m.metrics.logSlice ⟨key, start, m.now⟩ }
      = .ok () m' ∧ Departure key start m m₁ ∧ m'.inside = m₁.inside := by
  obtain ⟨p, known, started, state⟩ := h.processor.current key current
  let m₀ : Machine :=
    { m with current := none, metrics := m.metrics.logSlice ⟨key, start, m.now⟩ }
  have found : process key m₀ = .ok p m₀ := process_apply known
  unfold Machine.leave
  rw [bind_apply, modify_apply]
  dsimp only
  rw [bind_apply, found]
  dsimp only
  rcases state with runs | blocked
  · have stands := h.orderly.station?_of_running known runs
    rw [if_neg (by rw [runs]; decide), bind_apply, get_apply]
    dsimp only
    by_cases facing : m.memory.isInstruction p.pc
    · obtain ⟨⟨slot, i⟩, at_pc⟩ := Option.isSome_iff_exists.1 facing
      rw [if_pos facing, reschedule_apply]
      exact ⟨_, _, rfl, .preempt ⟨current, known, runs, congrArg (Option.map Prod.snd) at_pc⟩
        (h.orderly.transfer_preempt known stands), rfl⟩
    · have at_end : m.memory.instructionSlot? p.pc = none := Option.not_isSome_iff_eq_none.1 facing
      have known' := Scheduler.process?_amend_self known (ControlBlock.ended m.now)
      have ended : Sound ps (m.change key (ControlBlock.ended m.now)) :=
        h.change (fun _ => rfl) (fun _ => rfl) (fun _ => rfl) (fun _ => rfl)
      have moved := ended.orderly.transfer_terminate known'
        (ended.orderly.station?_of_running known' runs)
      obtain ⟨began, hbegan⟩ := Option.isSome_iff_exists.1 started
      have recorded : Record.ofProcess? (p.ended m.now) =
          some (.ofTimes p.pid p.releaseTime began m.now p.executed) := by
        unfold Record.ofProcess?
        rw [show (p.ended m.now).startTime = some began from hbegan]
        rfl
      rw [if_neg facing]
      exact ⟨_, _, Machine.terminate_apply (moved.process?_self known') recorded,
        .terminate current known runs at_end moved recorded, rfl⟩
  · rw [if_pos blocked]
    exact ⟨_, _, rfl, .yield current known blocked, rfl⟩

/-- In a turn of the running process its instructions are run, and then it has its slice and leaves the
processor. -/
theorem burst_eq (h : Sound ps m) (runs : m.Runs key) : Machine.burst m = (do
    Machine.runInstructions key m.quantum.toNat
    let stop := (← get).now
    Operation.measure fun x => x.logSlice ⟨key, m.now, stop⟩
    Machine.leave key
    return key : Operation Int) m := by
  obtain ⟨current, p, known, -⟩ := runs
  obtain ⟨P, hP, placed⟩ := h.layout.lookup known
  have pid : p.pid = key := h.orderly.pid key p known
  unfold Machine.burst
  rw [bind_apply, get_apply]
  dsimp only
  rw [current]
  dsimp only
  rw [bind_apply, process_apply known]
  dsimp only
  rw [bind_apply, get_apply]
  dsimp only
  rw [placed.quantum, pid]

/-- What comes of a turn of the running process: its instructions are run, and then it leaves the
processor, unless they end in a fault. -/
theorem burst_cases (h : Sound ps m) (runs : m.Runs key) :
    (∃ m₁ m₂ m', Machine.runInstructions key m.quantum.toNat m = .ok () m₁ ∧
      Machine.burst m = .ok key m' ∧ Stretch key m.quantum.toNat m m₁ ∧
        Departure key m.now m₁ m₂ ∧ m'.inside = m₂.inside) ∨
      ∃ fault m', Machine.runInstructions key m.quantum.toNat m = .error fault m' ∧
        Machine.burst m = .error fault m' ∧ Halt key m.quantum.toNat fault m m' := by
  rw [h.burst_eq runs, bind_apply]
  rcases h.runInstructions_cases runs m.quantum.toNat with
    ⟨m₁, result, stretch⟩ | ⟨fault, m₁, result, halt⟩
  · have current₁ : m₁.current = some key := stretch.current.trans runs.1
    obtain ⟨m₂, m', left, departure, same⟩ := (h.works stretch.works).leave_departs current₁ m.now
    refine .inl ⟨m₁, m₂, m', result, ?_, stretch, departure, same⟩
    rw [result]
    simp only [bind_apply, get_apply, measure_apply]
    rw [left]
    rfl
  · refine .inr ⟨fault, m₁, result, ?_, halt⟩
    rw [result]

end Sound

end RoundRobin
