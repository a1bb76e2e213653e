import RoundRobin.Proofs.Mishap

/-!
# Moments of a step

Within a step the machine is seen at the moments between the instructions of the turn. From one moment
to the next an instruction is executed and counted, or nothing happens but that something is shown
(`Moment`, `Kept.moment`). If the pause after an instruction is refused, then it is counted, but not left
behind. What the beginning and the end of a step leave as it is comes of its moments alone
(`Kept.view_after_step`).
-/

namespace RoundRobin

open Operation

/-- What a moment of a turn leads to. -/
inductive Moment (m : Machine) : Machine → Prop where
  /-- The turn is over, or the instruction is refused. -/
  | rest (es : List Event) : Moment m (m.recordAll es)
  | execute {key : Int} {p : ControlBlock} {i : Instruction} {told : List Event} {goesOn : Bool}
    {m₁ : Machine} (rests : m.Rests) (facing : Facing m key p i)
    (result : Machine.execute key i (m.recordAll told) = .ok goesOn m₁) :
    Moment m (m₁.ticked key goesOn)
  /-- The pause after the instruction is refused. -/
  | hinder {key : Int} {p : ControlBlock} {i : Instruction} {told : List Event} {goesOn : Bool}
    {m₁ : Machine} (refused : ¬m.Rests) (facing : Facing m key p i)
    (result : Machine.execute key i (m.recordAll told) = .ok goesOn m₁) : Moment m (m₁.charge key)
  /-- A process that waits in vain waits once more. -/
  | linger {key : Int} {p : ControlBlock} {r : Resource} (current : m.current = some key)
    (known : m.scheduler.process? key = some p)
    (instruction : (m.memory.instructionSlot? p.pc).map Prod.snd = some (.semWait r))
    (es : List Event) : Moment m (((m.crowd r key 1).charge key).recordAll es)

theorem Moment.refl (m : Machine) : Moment m m := by
  have nothing := Moment.rest (m := m) []
  rwa [Machine.recordAll_nil] at nothing

/-- A process that waits in vain executes its wait once more. -/
theorem Machine.executed?_of_linger {m : Machine} {key : Int} {p : ControlBlock} {r : Resource}
    (current : m.current = some key) (known : m.scheduler.process? key = some p)
    (instruction : (m.memory.instructionSlot? p.pc).map Prod.snd = some (.semWait r))
    (es : List Event) : ∃ e, executed? m (((m.crowd r key 1).charge key).recordAll es) = some e ∧
      e.key = key ∧ e.instruction = .semWait r := by
  have known' : (((m.crowd r key 1).charge key).recordAll es).scheduler.process? key
      = some p.counted :=
    Scheduler.process?_amend_self (s := (m.crowd r key 1).scheduler) known ControlBlock.counted
  exact ⟨_, executed?_of_counted current known instruction known' rfl, rfl, rfl⟩

namespace Sound

variable {ps : List Program} {m m₁ : Machine} {key : Int} {p : ControlBlock} {i : Instruction}
  {told : List Event} {goesOn : Bool}

/-- What comes of executing the instruction that a process faces, in the sense of its turn. -/
theorem performed_of_execute (h : Sound ps m) (rests : m.Rests) (facing : Facing m key p i)
    (result : Machine.execute key i (m.recordAll told) = .ok goesOn m₁) :
    Performed key p i m (.ok goesOn (m₁.ticked key goesOn)) := by
  have same : (m.recordAll told).inside = m.inside := rfl
  have kept := (h.of_inside same).rests_execute (facing.of_inside same) result
  exact Machine.perform_of_done result (kept.2 rests) ▸ h.performed facing same

/-- What is executed from one moment to the next is the instruction that the process faces. -/
theorem executed?_of_execute (h : Sound ps m) (rests : m.Rests) (facing : Facing m key p i)
    (result : Machine.execute key i (m.recordAll told) = .ok goesOn m₁) :
    ∃ e, Machine.executed? m (m₁.ticked key goesOn) = some e ∧ e.key = key ∧ e.instruction = i := by
  cases h.performed_of_execute rests facing result with
  | completed _ completion same =>
    exact ⟨_, (Machine.executed?_of_inside same).trans (Machine.executed?_of_completion h completion),
      rfl, rfl⟩
  | blocked _ blocking same =>
    have waits := Option.some.inj (facing.instruction.symm.trans
      ((Option.some.inj (facing.known.symm.trans blocking.facing.known)) ▸ blocking.facing.instruction))
    exact ⟨_, (Machine.executed?_of_inside same).trans (Machine.executed?_of_blocking blocking),
      rfl, waits.symm⟩

/-- So it is if the pause after it is refused. -/
theorem executed?_of_refused (h : Sound ps m) (refused : ¬m.Rests) (facing : Facing m key p i)
    (result : Machine.execute key i (m.recordAll told) = .ok goesOn m₁) :
    ∃ e, Machine.executed? m (m₁.charge key) = some e ∧ e.key = key ∧ e.instruction = i := by
  have same : (m.recordAll told).inside = m.inside := rfl
  have outcome := ((h.of_inside same).outcome_execute (facing.of_inside same)).of_inside same
  rw [result] at outcome
  obtain ⟨p', known', counted⟩ := (outcome.hindered facing refused).known h facing.known
  exact ⟨_, Machine.executed?_of_facing facing known' counted, rfl, rfl⟩

/-- A turn is over, or it executes an instruction. It goes on from there unless the process was blocked
or the pause after the instruction is refused. -/
theorem firstMoment (h : Sound ps m) (runs : m.Runs key) :
    (∃ es, ∀ n, after (Machine.runInstructions key (n + 1)) m = m.recordAll es) ∨
    ∃ p i told goesOn m₁, Facing m key p i ∧
      Machine.execute key i (m.recordAll told) = .ok goesOn m₁ ∧
      ∀ n, after (Machine.runInstructions key (n + 1)) m
        = if m.Rests then
            if goesOn then after (Machine.runInstructions key n) (m₁.ticked key goesOn)
            else m₁.ticked key goesOn
          else m₁.charge key := by
  obtain ⟨current, p, known, running⟩ := runs
  cases at_pc : m.memory.instructionSlot? p.pc with
  | none =>
    refine .inl ⟨[], fun n => ?_⟩
    rw [after_of_ok (Machine.runInstructions_end known at_pc n), Machine.recordAll_nil]
  | some found =>
    obtain ⟨slot, i⟩ := found
    have facing : Facing m key p i := ⟨current, known, running, by rw [at_pc]; rfl⟩
    have told : m.announced p slot.value = m.recordAll (m.announcement p slot.value) :=
      m.announced_eq p slot.value
    have sound := h.of_inside (m.announced_inside p slot.value)
    have facing₀ := facing.of_inside (m.announced_inside p slot.value)
    cases result : Machine.execute key i (m.announced p slot.value) with
    | error fault m' =>
      have refusal := sound.refuses_execute facing₀.known i fault m' result
      refine .inl ⟨m.traces p slot.value i, fun n => ?_⟩
      have failed : Machine.runInstructions key (n + 1) m = .error fault m' := by
        rw [Machine.runInstructions_next known at_pc, bind_apply, Machine.perform, bind_apply, result]
      rw [after_of_error failed, refusal.frame]
    | ok goesOn m₁ =>
      have kept : m₁.Rests ↔ m.Rests := (sound.rests_execute facing₀ result).trans
        (Machine.rests_of_inside (m.announced_inside p slot.value))
      refine .inr ⟨p, i, _, goesOn, m₁, facing, told ▸ result, fun n => ?_⟩
      by_cases rests : m.Rests
      · rw [if_pos rests]
        unfold after
        rw [Machine.runInstructions_next known at_pc, bind_apply,
          Machine.perform_of_done result (kept.2 rests)]
        cases goesOn <;> rfl
      · obtain ⟨fault, -, counted⟩ := Machine.countInstruction_of_refused (kept.not.2 rests) key
        rw [if_neg rests]
        unfold after
        rw [Machine.runInstructions_next known at_pc, bind_apply, Machine.perform, bind_apply, result]
        dsimp only
        rw [bind_apply, counted]

/-- Each moment of a turn leads to the next one. -/
theorem moment (h : Sound ps m) (runs : m.Runs key) (n : Nat) :
    Moment (after (Machine.runInstructions key n) m) (after (Machine.runInstructions key (n + 1)) m) := by
  induction n generalizing m with
  | zero =>
    rcases h.firstMoment runs with ⟨es, ends⟩ | ⟨p, i, told, goesOn, m₁, facing, result, on⟩
    · rw [ends]
      exact .rest es
    · by_cases rests : m.Rests
      · have next : after (Machine.runInstructions key 1) m = m₁.ticked key goesOn := by
          rw [on, if_pos rests]
          cases goesOn <;> rfl
        rw [next]
        exact .execute rests facing result
      · rw [on, if_neg rests]
        exact .hinder rests facing result
  | succ n ih =>
    rcases h.firstMoment runs with ⟨es, ends⟩ | ⟨p, i, told, goesOn, m₁, facing, result, on⟩
    · rw [ends, ends]
      exact .refl _
    · rw [on, on]
      by_cases rests : m.Rests
      · rw [if_pos rests, if_pos rests]
        cases h.performed_of_execute rests facing result with
        | blocked => exact .refl _
        | completed _ completion same =>
          exact ih ((h.complete completion).of_inside same) ((completion.runs h).of_inside same)
      · rw [if_neg rests, if_neg rests]
        exact .refl _

/-- Each moment of a step leads to the next one. -/
theorem moment_beginStep (h : Sound ps m) (settled : Settled m) (k : Nat) :
    Moment (after (Machine.beginStep k) m) (after (Machine.beginStep (k + 1)) m) := by
  obtain ⟨m₁, promoted, promotion⟩ := h.promote_works
  have h₁ := h.works promotion.works
  rcases h₁.occupy_cases with ⟨key, m₂, run, occupied⟩ | ⟨run, idle, -⟩
  · have runs := occupied.runs (promotion.settled h settled)
    rw [Machine.after_beginStep_of_busy promoted run runs.1,
      Machine.after_beginStep_of_busy promoted run runs.1]
    exact (h₁.works occupied.works).moment runs k
  · rw [Machine.after_beginStep_of_idle promoted run idle,
      Machine.after_beginStep_of_idle promoted run idle]
    exact .refl _

end Sound

/-- Each moment of a step leads to the next one, also if a process waits in vain. -/
theorem Kept.moment {ps : List Program} {s m : Machine} (h : Kept ps s m) (k : Nat) :
    Moment (after (Machine.beginStep k) m) (after (Machine.beginStep (k + 1)) m) := by
  cases h with
  | clear sound settled => exact sound.moment_beginStep settled k
  | crowded sound stuck same =>
    obtain ⟨s₁, m₁, promotion, stuck₁, promoted, same₁⟩ := stuck.promotes sound same
    obtain ⟨fault, es, -, run⟩ := stuck₁.waits_again (sound.works promotion.works) same₁
    have mirrors := stuck₁.mirrors (sound.works promotion.works) same₁
    have current := mirrors.current.trans stuck₁.current
    have occupied := Machine.occupy_of_busy current
    rw [Machine.after_beginStep_of_busy promoted occupied current,
      Machine.after_beginStep_of_busy promoted occupied current, after_of_error (run k)]
    cases k with
    | zero =>
      exact .linger current ((mirrors.process? _).trans stuck₁.known)
        (mirrors.memory.symm ▸ stuck₁.instruction) es
    | succ k =>
      rw [after_of_error (run k)]
      exact .refl _

/-! ### The beginning and the end of a step -/

section

variable {γ : Type} {view : Machine → γ}

/-- What promoting and dispatching leave as it is is so at the first moment of a step. -/
theorem Machine.view_beginStep_zero (promote : Keeps view promote) (occupy : Keeps view occupy)
    (m : Machine) : view (after (beginStep 0) m) = view m := by
  refine Keeps.bind promote (fun _ => Keeps.bind occupy fun _ => Keeps.bind Keeps.get fun m => ?_) m
  cases m.current with
  | none => exact Keeps.pure ()
  | some key => exact Keeps.pure ()

/-- What leaving the processor and counting leave as it is comes of the moments of a step. -/
theorem Kept.view_after_step {ps : List Program} {s m : Machine} (kept : Kept ps s m)
    (leave : ∀ key, Keeps view (Machine.leave key)) (measure : ∀ f, Keeps view (measure f))
    (tick : Keeps view (tick 1)) : view (after Machine.step m)
      = view (after (Machine.beginStep m.quantum.toNat) m) := by
  cases kept with
  | crowded sound stuck same =>
    obtain ⟨_, fault, m', -, -, -, stepped, begun, -⟩ := stuck.step sound same
    have layout := (stuck.mirrors sound same).layout sound.layout
    obtain ⟨n, some_left⟩ := Nat.exists_eq_add_one.2 layout.turn_pos
    rw [after_of_error stepped, some_left, after_of_error (begun n)]
  | clear h settled =>
    obtain ⟨m₁, promoted, promotion⟩ := h.promote_works
    have h₁ := h.works promotion.works
    rcases h₁.occupy_cases with ⟨key, m₂, run, occupied⟩ | ⟨run, idle, -⟩
    · have runs := occupied.runs (promotion.settled h settled)
      obtain ⟨current, p, known, -⟩ := id runs
      obtain ⟨P, -, placed⟩ := (h₁.works occupied.works).layout.lookup known
      have stepped : after Machine.step s
          = after (do let _ ← Machine.burst; return true : Operation Bool) m₂ := by
        unfold after
        rw [Machine.step_eq promoted run, Machine.proceed_of_busy current]
      have turn : view (after Machine.burst m₂)
          = view (after (Machine.runInstructions key p.quantum.toNat) m₂) := by
        unfold Machine.burst
        rw [after_get_bind, current]
        dsimp only
        rw [after_bind_of_ok (process_apply known), after_get_bind]
        exact Keeps.after_bind (fun _ => Keeps.bind Keeps.get fun _ => Keeps.bind (measure _) fun _ =>
          Keeps.bind (leave key) fun _ => Keeps.pure _) m₂
      rw [Machine.after_beginStep_of_busy promoted run current, stepped, ← promotion.quantum,
        ← occupied.quantum, ← placed.quantum, ← turn]
      exact Keeps.after_bind (fun _ => Keeps.pure _) m₂
    · rw [Machine.after_beginStep_of_idle promoted run idle]
      have stepped : after Machine.step s = after Machine.proceed m₁ := by
        unfold after
        rw [Machine.step_eq promoted run]
      rw [stepped, Machine.proceed, after_get_bind]
      have quiet : m₁.isIdle = true := by rw [Machine.isIdle, idle]; rfl
      rw [if_pos quiet]
      exact Keeps.bind tick (fun _ => Keeps.bind (measure _) fun _ => Keeps.pure _) m₁

end

end RoundRobin
