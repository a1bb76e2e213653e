import RoundRobin.Proofs.Ledger
import RoundRobin.Proofs.Wakeup

/-!
# Instructions in vain

If the pauses of a machine are refused, then whoever executes an instruction stays in front of it and
keeps the processor. So all that was ever executed was executed by the process that has the processor,
every process is at its beginning, and of all the others nothing was executed, and none of them waits
(`History.vain`).
-/

namespace RoundRobin

open Operation

/-- Whatever was executed is of the process that has the processor, nobody has got past its first line,
and nobody else waits. -/
structure Vain (l : List Execution) (m : Machine) : Prop where
  executed : ∀ e ∈ l, m.current = some e.key
  start : ∀ key p, m.scheduler.process? key = some p → p.pc = p.lowerBound
  untouched : ∀ key p, m.scheduler.process? key = some p → m.current ≠ some key → p.executed = 0
  asleep : ∀ r key, key ∈ m.scheduler.queue (.blocked r) → m.current = some key

namespace Vain

variable {l l' : List Execution} {m m' : Machine} {key : Int}

theorem of_progress (V : Vain l m) (current : ∀ k, m.current = some k → m'.current = some k)
    (progress : ∀ k, (m'.scheduler.process? k).map ControlBlock.progress
      = (m.scheduler.process? k).map ControlBlock.progress)
    (waits : ∀ r k, k ∈ m'.scheduler.queue (.blocked r) → k ∈ m.scheduler.queue (.blocked r)) :
    Vain l m' := by
  refine ⟨fun e he => current _ (V.executed e he), fun k p' known' => ?_, fun k p' known' other => ?_,
    fun r k hk => current k (V.asleep r k (waits r k hk))⟩
  · obtain ⟨p, known, lower, pc, -⟩ := Scheduler.process?_of_progress (progress k) known'
    rw [← lower, ← pc]
    exact V.start k p known
  · obtain ⟨p, known, -, -, executed⟩ := Scheduler.process?_of_progress (progress k) known'
    rw [← executed]
    exact V.untouched k p known (mt (current k) other)

theorem of_inside (V : Vain l m) (same : m'.inside = m.inside) : Vain l m' := by
  have scheduler := Machine.scheduler_of_inside same
  have current := Machine.current_of_inside same
  exact V.of_progress (fun _ => by rw [current]; exact id) (fun _ => by rw [scheduler])
    fun _ _ => by rw [scheduler]; exact id

/-- The process that has the processor executes, and stays where it is. -/
theorem execute (V : Vain l m) (only : ∀ k, m.current = some k → k = key)
    (current : m'.current = some key) (entries : ∀ e ∈ l', e.key = key)
    (own : ∀ p', m'.scheduler.process? key = some p' → p'.pc = p'.lowerBound)
    (others : ∀ k, k ≠ key → m'.scheduler.body? k = m.scheduler.body? k)
    (waits : ∀ r k, k ≠ key → k ∈ m'.scheduler.queue (.blocked r) →
      k ∈ m.scheduler.queue (.blocked r)) : Vain (l ++ l') m' := by
  have progress : ∀ k, k ≠ key → (m'.scheduler.process? k).map ControlBlock.progress
      = (m.scheduler.process? k).map ControlBlock.progress :=
    fun k ne => Scheduler.map_process?_of_body? (fun _ => rfl) (others k ne)
  refine ⟨fun e he => ?_, fun k p' known' => ?_, fun k p' known' other => ?_, fun r k hk => ?_⟩
  · rcases List.mem_append.1 he with old | new
    · rw [current, only _ (V.executed e old)]
    · rw [current, entries e new]
  · by_cases same : k = key
    · subst same
      exact own p' known'
    · obtain ⟨p, known, lower, pc, -⟩ := Scheduler.process?_of_progress (progress k same) known'
      rw [← lower, ← pc]
      exact V.start k p known
  · have ne : k ≠ key := fun same => other (same ▸ current)
    obtain ⟨p, known, -, -, executed⟩ := Scheduler.process?_of_progress (progress k ne) known'
    rw [← executed]
    exact V.untouched k p known fun had => ne (only k had)
  · by_cases same : k = key
    · rw [current, same]
    · exact absurd (only k (V.asleep r k (waits r k same hk))) same

theorem load (V : Vain l m) {P : Program} (load : Load P m m') : Vain l m' := by
  obtain ⟨released, loaded, arrival⟩ := load
  refine ⟨V.executed, fun k p known => ?_, fun k p known other => ?_, fun r k waits => ?_⟩
  · dsimp only at known
    rw [arrival.process?] at known
    split at known
    · cases known
      rfl
    · exact V.start k p known
  · dsimp only at known
    rw [arrival.process?] at known
    split at known
    · cases known
      rfl
    · exact V.untouched k p known other
  · dsimp only at waits
    rw [arrival.queue, if_neg nofun] at waits
    exact V.asleep r k waits

end Vain

/-! ### What is executed in a step -/

/-- What was executed between two moments was executed by the process that had the processor. -/
theorem Machine.current_of_executed? {m m' : Machine} {e : Execution} (executed : executed? m m' = some e) :
    m.current = some e.key := by
  unfold executed? at executed
  simp only [Option.bind_eq_bind, Option.bind_eq_some_iff] at executed
  obtain ⟨key, current, p, -, p', -, found, -, rest⟩ := executed
  split at rest
  · cases rest
    exact current
  · cases rest

theorem Machine.key_of_mem_executions {m : Machine} {key : Int}
    (keeps : ∀ k, (after (beginStep k) m).current = some key) : ∀ e ∈ m.executions, e.key = key := by
  intro e he
  obtain ⟨k, -, executed⟩ := List.mem_filterMap.1 he
  exact Option.some.inj ((current_of_executed? executed).symm.trans (keeps k))

theorem Machine.key_of_mem_turnExecutions {m : Machine} {key : Int} {n : Nat}
    (keeps : ∀ k, (after (runInstructions key k) m).current = some key) :
    ∀ e ∈ m.turnExecutions key n, e.key = key := by
  intro e he
  obtain ⟨k, -, executed⟩ := List.mem_filterMap.1 he
  exact Option.some.inj ((current_of_executed? executed).symm.trans (keeps k))

/-- A process that faces an instruction is not at its end after a promotion. -/
theorem Promotion.not_atEnd {m m' : Machine} {key : Int} {p : ControlBlock} {i : Instruction}
    (promotion : Promotion m m') (facing : Facing m key p i) : ¬m'.AtEnd key := by
  rintro ⟨q, known, nothing⟩
  have memory : m'.memory = m.memory := (Machine.memory_of_inside promotion.frame).trans rfl
  obtain ⟨p', known', body⟩ := Scheduler.process?_of_body? (promotion.body? key) known
  cases facing.known.symm.trans known'
  have pc : q.pc = p.pc := (congrArg ControlBlock.pc body :)
  have instruction := facing.instruction
  rw [← pc, ← memory, nothing] at instruction
  cases instruction

theorem Occupied.current_of_some {m m' : Machine} {key k : Int} (o : Occupied key m m')
    (current : m.current = some k) : m'.current = some k := by
  cases o with
  | busy => exact current
  | dispatched dispatch same =>
    obtain ⟨idle, -, -, -⟩ := dispatch
    cases idle.symm.trans current

namespace Hindered

variable {ps : List Program} {m m' : Machine} {key : Int}

theorem current (h : Hindered key m m') : m'.current = some key := by
  cases h with
  | stalls stall same =>
    rw [Machine.current_of_inside same]
    have facing := stall.facing
    obtain ⟨-, -, -⟩ := stall
    exact facing.current
  | blocks blocking _ same =>
    rw [Machine.current_of_inside same, blocking.current]
    exact blocking.facing.current

/-- A process whose pause was refused stays where it is, and no other one changes but for where it
stands. -/
theorem stays (h : Hindered key m m') (sound : Sound ps m) : (∃ p p', m.scheduler.process? key = some p ∧
      m'.scheduler.process? key = some p' ∧ p'.pc = p.pc ∧ p'.lowerBound = p.lowerBound) ∧
    ∀ k, k ≠ key → m'.scheduler.body? k = m.scheduler.body? k := by
  cases h with
  | stalls stall same =>
    rw [Machine.scheduler_of_inside same]
    obtain ⟨n, known⟩ := stall.known sound
    exact ⟨⟨_, _, stall.facing.known, known, rfl, rfl⟩, fun k ne => stall.body?_of_ne ne⟩
  | blocks blocking _ same =>
    rw [Machine.scheduler_of_inside same]
    exact ⟨⟨_, _, blocking.facing.known, blocking.known, rfl, rfl⟩, fun k ne => blocking.body?_of_ne ne⟩

/-- Nobody but a process whose pause was refused begins to wait. -/
theorem waits (h : Hindered key m m') (r : Resource) (k : Int) (ne : k ≠ key)
    (hk : k ∈ m'.scheduler.queue (.blocked r)) : k ∈ m.scheduler.queue (.blocked r) := by
  cases h with
  | stalls stall same =>
    rw [Machine.scheduler_of_inside same] at hk
    obtain ⟨facing, effect, -⟩ := stall
    exact effect.mem_blocked ((Scheduler.queue_amend _ _ _ _) ▸ hk)
  | blocks blocking _ same =>
    rw [Machine.scheduler_of_inside same] at hk
    obtain ⟨facing, used_up, moved⟩ := blocking
    exact (moved.mem_queue_of_ne ne _).1 ((Scheduler.queue_amend _ _ _ _) ▸ hk)

end Hindered

theorem Sound.current_runInstructions {ps : List Program} {m : Machine} {key : Int} (h : Sound ps m)
    (runs : m.Runs key) (n : Nat) : (after (Machine.runInstructions key n) m).current = some key := by
  rcases h.runInstructions_cases runs n with ⟨m', result, stretch⟩ | ⟨fault, m', result, halt⟩
  · rw [after_of_ok result, stretch.current]
    exact runs.1
  · rw [after_of_error result]
    cases halt with
    | broken broken =>
      obtain ⟨-, -, facing⟩ := broken
      exact facing.current
    | hindered _ _ hindered => exact hindered.current

namespace Vain

variable {ps : List Program} {l : List Execution} {s m : Machine}

theorem promote {m₁ : Machine} (V : Vain l m) (promotion : Promotion m m₁) : Vain l m₁ :=
  V.of_progress (fun _ => promotion.current.symm ▸ id) promotion.progress
    fun r _ => by rw [promotion.queue_blocked]; exact id

theorem occupy {m₁ : Machine} {key : Int} (V : Vain l m) (occupied : Occupied key m m₁) : Vain l m₁ :=
  V.of_progress (fun _ => occupied.current_of_some) occupied.progress
    fun r _ => by rw [occupied.queue_blocked]; exact id

/-- A step that ends in a fault executes an instruction in vain, or nothing. -/
theorem halt {m₂ : Machine} {key : Int} (V : Vain l m₂) (sound : Sound ps m₂) (runs : m₂.Runs key)
    (refused : ¬m₂.Rests) {fault : Fault} {m' : Machine} {n : Nat} (positive : 0 < n)
    (broke : Machine.runInstructions key n m₂ = .error fault m') :
    Vain (l ++ m₂.turnExecutions key n) m' := by
  obtain ⟨n, rfl⟩ := Nat.exists_eq_succ_of_ne_zero (Nat.ne_of_gt positive)
  cases sound.opening runs with
  | ends at_end halts => cases (halts n).symm.trans broke
  | blocks rests | goes rests => exact absurd rests refused
  | fault facing same halts =>
    cases (halts n).symm.trans broke
    rw [Machine.turnExecutions_of_over fun k => after_of_error (halts k), Machine.executed?_eq_none same]
    exact (List.append_nil l).symm ▸ V.of_inside same
  | hindered pauses hindered halts =>
    cases (halts n).symm.trans broke
    obtain ⟨⟨p, p', known, known', pc, lower⟩, others⟩ := hindered.stays sound
    refine V.execute (fun k current => ?_) hindered.current
      (Machine.key_of_mem_turnExecutions (sound.current_runInstructions runs)) (fun q hq => ?_) others
      hindered.waits
    · exact (Option.some.inj (runs.1.symm.trans current)).symm
    · cases known'.symm.trans hq
      rw [pc, lower]
      exact V.start key p known

/-- A turn that comes to its end was one in which nothing was to be done. -/
theorem turn {m₂ m₃ : Machine} {key : Int} (sound : Sound ps m₂) (runs : m₂.Runs key)
    (refused : ¬m₂.Rests) {n : Nat} (positive : 0 < n)
    (ran : Machine.runInstructions key n m₂ = .ok () m₃) :
    m₃ = m₂ ∧ m₂.AtEnd key ∧ m₂.turnExecutions key n = [] := by
  obtain ⟨n, rfl⟩ := Nat.exists_eq_succ_of_ne_zero (Nat.ne_of_gt positive)
  cases sound.opening runs with
  | ends at_end halts =>
    cases (halts n).symm.trans ran
    refine ⟨rfl, at_end, ?_⟩
    rw [Machine.turnExecutions_of_over fun k => after_of_ok (halts k), Machine.executed?_eq_none rfl]
    rfl
  | blocks rests | goes rests => exact absurd rests refused
  | fault facing same halts => cases (halts n).symm.trans ran
  | hindered pauses hindered halts => cases (halts n).symm.trans ran

/-- A step executes once more a wait that is in vain. -/
theorem wait {key : Int} {p : ControlBlock} {r : Resource} {n : Nat} (V : Vain l m) (sound : Sound ps s)
    (stuck : Stuck s key p r) (same : m.inside = (s.crowd r key n).inside) :
    Vain (l ++ m.executions) (after Machine.step m) := by
  obtain ⟨s₁, fault, m', promotion, stuck₁, -, result, begun, inside⟩ := stuck.step sound same
  have mirrors := stuck.mirrors sound same
  have sound₁ := sound.moves (promotion.works.moves.tail (.linger stuck₁))
  have mirrors' := stuck₁.charge.mirrors sound₁ inside
  rw [after_of_error result]
  refine V.execute (fun k current => ?_) (mirrors'.current.trans stuck₁.current)
    (Machine.key_of_mem_executions fun k => ?_) (fun q hq => ?_) (fun k ne => ?_) fun r k _ hk => ?_
  · rw [mirrors.current, stuck.current] at current
    exact (Option.some.inj current).symm
  · cases k with
    | zero =>
      obtain ⟨_, m₁, -, stuck', promoted, same'⟩ := stuck.promotes sound same
      have current := (Machine.current_of_inside same').trans stuck'.current
      rw [Machine.after_beginStep_of_busy promoted (Machine.occupy_of_busy current) current]
      exact current
    | succ k =>
      rw [after_of_error (begun k)]
      exact mirrors'.current.trans stuck₁.current
  · rw [mirrors'.process?, stuck₁.charge.known] at hq
    cases hq
    exact V.start key p ((mirrors.process? key).trans stuck.known)
  · have charged := s₁.scheduler.body?_amend_of_ne ne ControlBlock.counted
    have body := charged.trans (promotion.body? k)
    rw [Scheduler.body?, mirrors'.process?, Scheduler.body?, mirrors.process?]
    exact body
  · have waits := (mirrors'.waits r k).1 hk
    rw [show (s₁.charge key).scheduler.queue (.blocked r) = s₁.scheduler.queue (.blocked r) from
      Scheduler.queue_amend _ _ _ _, promotion.queue_blocked] at waits
    exact (mirrors.waits r k).2 waits

/-- A step in which a pause is refused, or nothing is executed. -/
theorem step (V : Vain l m) (kept : Kept ps s m) (poised : Poised m) (refused : ¬m.Rests) :
    Vain (l ++ m.executions) (after Machine.step m) := by
  cases kept with
  | clear sound settled =>
    have executes := sound.executes settled
    generalize s.executions = entries, after Machine.step s = m' at executes ⊢
    cases executes with
    | idle promotion idle =>
      rw [List.append_nil]
      have V₁ := V.promote promotion
      exact V₁.of_progress (fun _ => id) (fun _ => rfl) fun _ _ => id
    | @turn key m₁ m₂ m₃ m₄ _ promotion occupied sound₂ runs ran _ _ departure same =>
      have refused₂ := mt (fun rests => promotion.rests.1 (occupied.rests.1 rests)) refused
      have positive := sound₂.layout.turn_pos
      obtain ⟨rfl, at_end, nothing⟩ := turn sound₂ runs refused₂ positive ran
      rw [nothing, List.append_nil]
      have progress := fun k => (departure.progress k).trans
        ((occupied.progress k).trans (promotion.progress k))
      refine V.of_progress (fun k current => ?_) (fun k => ?_) fun r k => ?_
      · -- whoever had the processor before faces a line
        cases occupied with
        | busy busy =>
          rw [promotion.current] at busy
          obtain ⟨p, i, facing⟩ := poised key ⟨busy, settled key busy⟩
          exact absurd at_end (promotion.not_atEnd facing)
        | dispatched dispatch _ =>
          obtain ⟨idle, -, -, -⟩ := dispatch
          cases (promotion.current.symm.trans idle).symm.trans current
      · rw [Machine.scheduler_of_inside same]
        exact progress k
      · rw [Machine.scheduler_of_inside same, departure.queue_blocked, occupied.queue_blocked,
          promotion.queue_blocked]
        exact id
    | @fault key _ m₁ m₂ _ promotion occupied sound₂ runs broke =>
      have refused₂ := mt (fun rests => promotion.rests.1 (occupied.rests.1 rests)) refused
      have positive := sound₂.layout.turn_pos
      exact ((V.promote promotion).occupy occupied).halt sound₂ runs refused₂ positive broke
  | crowded sound stuck same => exact V.wait sound stuck same

end Vain

/-- If its pauses are refused, all that was executed on a machine was executed in vain. -/
theorem History.vain {ps : List Program} {l : List Execution} {m : Machine} (h : History ps l m)
    (refused : ¬m.Rests) : Vain l m := by
  induction h with
  | create made =>
    obtain ⟨-, -, empty, -⟩ := Sound.create made
    have nobody : ∀ k p, _ ≠ some p := fun k p known =>
      nomatch (Scheduler.process?_empty k).symm.trans known
    rw [← empty] at nobody
    refine ⟨nofun, fun k p known => absurd known (nobody k p),
      fun k p known => absurd known (nobody k p), fun r k waits => ?_⟩
    rw [empty, Scheduler.queue_empty] at waits
    cases waits
  | load before given admits ih =>
    obtain ⟨m₁, load, same⟩ := Machine.load_of_admits given admits
    have rests := (Machine.rests_of_inside same).trans load.rests
    exact ((ih (mt rests.2 refused)).load load).of_inside same
  | step before ih =>
    obtain ⟨s, kept⟩ := before.reachable.kept
    have refused' := mt before.reachable.rests_step.2 refused
    exact (ih refused').step kept before.reachable.poised refused'
  | outside _ _ same ih => exact (ih (mt (Machine.rests_of_inside same).2 refused)).of_inside same

/-- So there is no deadlock on it. -/
theorem Reachable.not_isDeadlocked_of_refused {ps : List Program} {m : Machine} (h : Reachable ps m)
    (refused : ¬m.Rests) : ¬m.isDeadlocked := by
  intro stuck
  obtain ⟨l, history⟩ := h.exists_history
  obtain ⟨idle, -, -, somebody⟩ := m.isDeadlocked_iff.1 stuck
  obtain ⟨key, waits⟩ := List.exists_mem_of_length_pos somebody
  obtain ⟨r, -, waits⟩ := List.mem_flatMap.1 waits
  cases idle.symm.trans ((history.vain refused).asleep r key waits)

end RoundRobin
