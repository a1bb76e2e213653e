import RoundRobin.Proofs.Standstill
import RoundRobin.Proofs.Vain
import RoundRobin.Proofs.WholeTurn

/-!
# Quanta that are long enough

If no program is longer than the quantum, it is never the quantum that ends a turn (`Ample`). A turn
that does not end in a fault blocks its process or ends it (`Ample.fate`), and all quanta that are long
enough lead to the same turn (`Sound.runInstructions_enough`). So the processor was given away once for
every process that ended and for every wait that was refused (`Balanced`).
-/

namespace RoundRobin

open Operation

/-! ### The forecast of a turn that is not cut -/

namespace Semaphores

variable {s : Semaphores} {ahead : List Instruction} {n : Nat}

theorem lt_of_refusal? {j : Nat} (refused : s.refusal? ahead = some j) : j < ahead.length := by
  induction ahead generalizing s j with
  | nil => cases refused
  | cons i rest ih =>
    rw [List.length_cons]
    rw [refusal?] at refused
    split at refused
    · cases refused
      exact Nat.succ_pos _
    · obtain ⟨k, later, rfl⟩ := Option.map_eq_some_iff.1 refused
      exact Nat.succ_lt_succ (ih later)

/-- A process that may execute all that is ahead of it is blocked or ends. -/
theorem turnEnd_of_enough (enough : ahead.length ≤ n) :
    s.turnEnd n ahead = .blocked ∨ s.turnEnd n ahead = .terminated := by
  cases blocks : s.turnBlocks n ahead with
  | true => exact .inl (turnEnd_of_blocks blocks)
  | false =>
    refine .inr (turnEnd_of_eq blocks ?_)
    rw [turnBlocks] at blocks
    rw [turnLength] at blocks ⊢
    cases refused : s.refusal? ahead with
    | none => exact Nat.min_eq_right enough
    | some j =>
      -- an instruction that is refused would have been reached
      have inside := lt_of_refusal? refused
      rw [refused] at blocks
      simp at blocks
      omega

end Semaphores

/-! ### Turns that are not cut -/

/-- No program is longer than the quantum. -/
structure Ample (ps : List Program) (m : Machine) : Prop where
  sound : Sound ps m
  long : ∀ P ∈ ps, (P.lines.length : Int) ≤ m.quantum

namespace Sound

variable {ps : List Program} {m m' : Machine} {key : Int} {p : ControlBlock}

/-- If it is enough for all that is ahead of a process, one instruction more makes no difference. -/
theorem runInstructions_succ_of_enough (h : Sound ps m) (runs : m.Runs key)
    (known : m.scheduler.process? key = some p) {n : Nat}
    (enough : (Program.ahead ps p.position).length ≤ n) :
    Machine.runInstructions key (n + 1) m = Machine.runInstructions key n m := by
  induction n generalizing m p with
  | zero =>
    have nothing := List.length_eq_zero_iff.1 (Nat.le_zero.1 enough)
    have at_pc := h.head?_ahead known
    rw [nothing, List.head?_nil, eq_comm, Option.map_eq_none_iff] at at_pc
    exact Machine.runInstructions_end known at_pc 0
  | succ n ih =>
    cases h.opening runs with
    | ends at_end halts => rw [halts, halts]
    | fault facing same halts => rw [halts, halts]
    | hindered pauses hindered halts => rw [halts, halts]
    | blocks rests blocking same halts => rw [halts, halts]
    | @goes q i m₁ m₂ rests completion same on =>
      cases known.symm.trans completion.facing.known
      obtain ⟨bound, known₁⟩ := completion.known h
      rw [← Machine.scheduler_of_inside same] at known₁
      have h₂ := (h.complete completion).of_inside same
      have fewer := h.ahead_of_pc h₂ known known₁ (k := 1) rfl
      rw [on, on]
      refine ih h₂ ((completion.runs h).of_inside same) known₁ ?_
      rw [fewer, List.length_drop]
      omega

/-- All numbers of instructions that are enough for what is ahead of a process come to the same. -/
theorem runInstructions_enough (h : Sound ps m) (runs : m.Runs key)
    (known : m.scheduler.process? key = some p) {n k : Nat}
    (enough : (Program.ahead ps p.position).length ≤ n) (more : n ≤ k) :
    Machine.runInstructions key k m = Machine.runInstructions key n m := by
  induction k, more using Nat.le_induction with
  | base => rfl
  | succ k more ih =>
    exact (h.runInstructions_succ_of_enough runs known (Nat.le_trans enough more)).trans ih

end Sound

namespace Ample

variable {ps : List Program} {m m' : Machine} {key pid : Int} {p : ControlBlock}

theorem length_ahead_le (h : Ample ps m) (known : m.scheduler.process? key = some p) :
    (Program.ahead ps p.position).length ≤ m.quantum.toNat := by
  obtain ⟨P, hP, -⟩ := h.sound.layout.lookup known
  have long := h.long P (Program.mem_of_under hP)
  rw [h.sound.position_eq known, Program.ahead, Program.code_eq hP, List.length_drop,
    Program.instructions, List.length_map]
  omega

/-- A turn that does not end in a fault blocks its process or ends it. -/
theorem fate (h : Ample ps m) (runs : m.Runs key) (done : Machine.burst m = .ok pid m') :
    ∃ p', m'.scheduler.process? key = some p' ∧ (p'.state = .blocked ∨ p'.state = .terminated) := by
  obtain ⟨p, known, -⟩ := runs.2
  obtain ⟨p', known', -, state, -⟩ := (h.sound.wholeTurn runs known done).process
  exact ⟨p', known', state ▸ Semaphores.turnEnd_of_enough (h.length_ahead_le known)⟩

/-- So does the turn of whatever process has the processor. -/
theorem ends (h : Ample ps m) (settled : Settled m) (done : Machine.burst m = .ok pid m') :
    ∃ p', m'.scheduler.process? pid = some p' ∧ (p'.state = .blocked ∨ p'.state = .terminated) := by
  cases current : m.current with
  | none =>
    rw [Machine.burst, bind_apply, get_apply] at done
    dsimp only at done
    rw [current] at done
    cases done
  | some key =>
    have runs : m.Runs key := ⟨current, settled key current⟩
    rcases h.sound.burst_cases runs with ⟨-, -, m₁, -, burst, -⟩ | ⟨fault, m₁, -, burst, -⟩
    · cases done.symm.trans burst
      exact h.fate runs done
    · cases done.symm.trans burst

theorem of_quantum (h : Ample ps m) (sound : Sound ps m') (same : m'.quantum = m.quantum) :
    Ample ps m' :=
  ⟨sound, same ▸ h.long⟩

end Ample

/-! ### Turns, ends and waits -/

/-- The processor was given away once for every process that ended, for every one that runs, and for
every wait that was refused. -/
def Balanced (l : List Execution) (m : Machine) : Prop :=
  m.metrics.contextSwitches = (m.scheduler.queue .terminated).length
    + l.countP Execution.blocked + (m.scheduler.queue .running).length

namespace Balanced

variable {ps : List Program} {l : List Execution} {m m' : Machine} {key start : Int}
  {p : ControlBlock} {i : Instruction} {r : Resource}

theorem of_same (B : Balanced l m)
    (switches : m'.metrics.contextSwitches = m.metrics.contextSwitches)
    (terminated : m'.scheduler.queue .terminated = m.scheduler.queue .terminated)
    (running : m'.scheduler.queue .running = m.scheduler.queue .running) : Balanced l m' := by
  rw [Balanced, switches, terminated, running]
  exact B

theorem of_inside (B : Balanced l m) (same : m'.inside = m.inside) : Balanced l m' := by
  have scheduler := Machine.scheduler_of_inside same
  exact B.of_same (by rw [Machine.metrics_of_inside same]) (by rw [scheduler]) (by rw [scheduler])

theorem complete (B : Balanced l m) (c : Completion key p i m m') (woken : List Int) :
    Balanced (l ++ [⟨key, p.pc, i, false, woken⟩]) m' := by
  have same : Balanced l m' := by
    refine B.of_same ?_ (c.queue_eq .terminated nofun nofun) (c.queue_eq .running nofun nofun)
    cases c
    rfl
  rw [Balanced, List.countP_append]
  exact same

/-- A refused wait is counted, and its process no longer runs. -/
theorem block (B : Balanced l m) (h : Sound ps m) (b : Blocking key p r m m') (woken : List Int) :
    Balanced (l ++ [⟨key, p.pc, .semWait r, true, woken⟩]) m' := by
  obtain @⟨s, facing, used_up, moved⟩ := b
  have runs := h.orderly.mem_queue_of_station facing.known
    (h.orderly.station?_of_running facing.known facing.runs)
  have one_less := List.length_erase_add_one runs
  have ended : s.queue .terminated = m.scheduler.queue .terminated :=
    moved.queue_of_ne nofun nofun
  have before : m.metrics.contextSwitches = _ := B
  show m.metrics.contextSwitches = ((s.amend key ControlBlock.counted).queue .terminated).length
    + _ + ((s.amend key ControlBlock.counted).queue .running).length
  rw [before, Scheduler.queue_amend, Scheduler.queue_amend, ended, moved.queue .running,
    if_neg nofun, if_pos rfl, List.countP_append, List.countP_singleton, if_pos rfl]
  omega

theorem turn (B : Balanced l m) (h : Sound ps m) (rests : m.Rests) (runs : m.Runs key) (n : Nat) :
    Balanced (l ++ m.turnExecutions key n) (after (Machine.runInstructions key n) m) :=
  h.turn_invariant (fun _ _ _ B same => B.of_inside same) (fun _ B c => B.complete c _)
    (fun h B b => B.block h b _) rests runs B n

theorem create (empty : m.scheduler = {}) (metrics : m.metrics = {}) : Balanced [] m := by
  rw [Balanced, metrics, empty, Scheduler.queue_empty, Scheduler.queue_empty]
  rfl

theorem load (B : Balanced l m) {P : Program} (load : Load P m m') : Balanced l m' := by
  obtain ⟨released, stored, arrival⟩ := load
  exact B.of_same rfl ((arrival.queue .terminated).trans (if_neg nofun))
    ((arrival.queue .running).trans (if_neg nofun))

theorem promote (B : Balanced l m) (promotion : Promotion m m') : Balanced l m' :=
  B.of_same (by rw [promotion.metrics]) (promotion.unmoved .terminated nofun nofun)
    (promotion.unmoved .running nofun nofun)

/-- A process that takes the processor runs. -/
theorem occupy (B : Balanced l m) (occupied : Occupied key m m') : Balanced l m' := by
  cases occupied with
  | busy => exact B
  | dispatched dispatch same =>
    refine Balanced.of_inside ?_ same
    obtain @⟨rest, s, idle, front, known, moved⟩ := dispatch
    have ended : s.queue .terminated = m.scheduler.queue .terminated :=
      moved.queue_of_ne nofun nofun
    have before : m.metrics.contextSwitches = _ := B
    show m.metrics.contextSwitches + 1
      = ((s.amend key (ControlBlock.started m.now)).queue .terminated).length + _
        + ((s.amend key (ControlBlock.started m.now)).queue .running).length
    rw [before, Scheduler.queue_amend, Scheduler.queue_amend, ended, moved.queue .running,
      if_pos rfl, List.length_append, List.length_singleton]
    omega

/-- A process that leaves the processor runs no more, and ends if it is not ready again. -/
theorem depart (B : Balanced l m) (h : Sound ps m) (departure : Departure key start m m')
    (unready : ∀ p', m'.scheduler.process? key = some p' → p'.state ≠ .ready) : Balanced l m' := by
  have switches : m'.metrics.contextSwitches = m.metrics.contextSwitches := by
    rw [departure.metrics, Metrics.logSlice_frame]
  cases departure with
  | yield => exact B.of_same switches rfl rfl
  | preempt facing moved => exact absurd rfl (unready _ (moved.process?_self facing.known))
  | @terminate p s record current known runs at_end moved recorded =>
    have running := h.orderly.mem_queue_of_station known (h.orderly.station?_of_running known runs)
    have one_less := List.length_erase_add_one running
    have before : m.metrics.contextSwitches = _ := B
    rw [Balanced, switches, before]
    dsimp only
    rw [moved.queue .terminated, if_pos rfl, moved.queue .running, if_neg nofun, if_pos rfl,
      Scheduler.queue_amend, Scheduler.queue_amend, List.length_append, List.length_singleton]
    omega

/-- A step keeps the balance if no program is longer than the quantum, also if it ends in a fault, unless
the pauses are refused. -/
theorem step (B : Balanced l m) (h : Ample ps m) (settled : Settled m) (rests : m.Rests) :
    Balanced (l ++ m.executions) (after Machine.step m) := by
  have executes := h.sound.executes settled
  generalize m.executions = entries, after Machine.step m = m' at executes ⊢
  cases executes with
  | idle promotion =>
    rw [List.append_nil]
    exact (B.promote promotion).of_same rfl rfl rfl
  | @turn key m₁ m₂ m₃ m₄ _ promotion occupied sound runs ran sound' burst departure same =>
    have rests₂ := occupied.rests.2 (promotion.rests.2 rests)
    have entered := ((B.promote promotion).occupy occupied).turn sound rests₂ runs m₂.quantum.toNat
    rw [after_of_ok ran] at entered
    have ample := h.of_quantum sound (occupied.quantum.trans promotion.quantum)
    obtain ⟨p', known', fate⟩ := ample.fate runs burst
    refine Balanced.of_inside (entered.depart sound' departure fun p known => ?_) same
    rw [← Machine.scheduler_of_inside same, known'] at known
    cases known
    rcases fate with blocked | ended
    · simp [blocked]
    · simp [ended]
  | @fault key _ m₁ m₂ _ promotion occupied sound runs broke =>
    have rests₂ := occupied.rests.2 (promotion.rests.2 rests)
    have entered := ((B.promote promotion).occupy occupied).turn sound rests₂ runs m₂.quantum.toNat
    rw [after_of_error broke] at entered
    exact entered

/-- If the pauses are refused, a step that does not end in a fault executes nothing, and if it gives the
processor away, it ends a process that has nothing to do. -/
theorem step_of_refused (B : Balanced [] m) (h : Sound ps m) (settled : Settled m) (refused : ¬m.Rests)
    {ran : Bool} (took : Machine.step m = .ok ran m') : Balanced [] m' := by
  have executes := h.executes settled
  rw [after_of_ok took] at executes
  generalize m.executions = entries at executes
  cases executes with
  | idle promotion => exact (B.promote promotion).of_same rfl rfl rfl
  | @turn key m₁ m₂ m₃ m₄ _ promotion occupied sound runs ran _ _ departure same =>
    have refused₂ := mt (fun rests => promotion.rests.1 (occupied.rests.1 rests)) refused
    have positive := sound.layout.turn_pos
    obtain ⟨rfl, at_end, -⟩ := Vain.turn sound runs refused₂ positive ran
    have given := (B.promote promotion).occupy occupied
    refine Balanced.of_inside (given.depart sound departure fun p known ready => ?_) same
    have gone := departure.terminated_of_atEnd runs at_end
    have last : key ∈ m₄.scheduler.queue .terminated := by
      rw [gone]
      exact List.mem_append_right _ (List.mem_singleton_self key)
    have ended := (sound.depart departure).orderly.state_of_mem last known
    cases ready.symm.trans ended
  | fault promotion occupied sound runs broke raised => cases took.symm.trans raised

end Balanced

/-- Wherever requests lead, also after faults, the processor was given away once for every process that
ended, for every wait that was refused, and for the process that has it, unless the pauses are refused. -/
theorem History.balanced {ps : List Program} {l : List Execution} {m : Machine} (h : History ps l m)
    (rests : m.Rests) (long : ∀ P ∈ ps, (P.lines.length : Int) ≤ m.quantum) : Balanced l m := by
  induction h with
  | create made =>
    obtain ⟨-, -, empty, -, metrics⟩ := Sound.create made
    exact .create empty metrics
  | load before given admits ih =>
    obtain ⟨m₁, load, same⟩ := Machine.load_of_admits given admits
    rw [Machine.quantum_of_inside same, load.quantum] at long
    have rests₀ := load.rests.1 ((Machine.rests_of_inside same).1 rests)
    have balanced := ih rests₀ fun P hP => long P (List.mem_append_left _ hP)
    exact (balanced.load load).of_inside same
  | step before ih =>
    have rests₀ := before.reachable.rests_step.1 rests
    obtain ⟨sound, settled⟩ := before.reachable.sound rests₀
    rw [(sound.after_step settled).1.quantum] at long
    exact (ih rests₀ long).step ⟨sound, long⟩ settled rests₀
  | outside _ _ same ih =>
    rw [Machine.quantum_of_inside same] at long
    exact (ih ((Machine.rests_of_inside same).1 rests) long).of_inside same

/-- As long as no request ends in a fault, nothing is ever executed on a machine whose pauses are
refused. -/
theorem Unbroken.balanced {ps : List Program} {m : Machine} (h : Unbroken ps m) (refused : ¬m.Rests) :
    Balanced [] m := by
  have both := Unbroken.invariant (Q := fun _ m => ¬m.Rests → Balanced [] m) ?_ ?_ ?_ ?_ h
  · exact both.2 refused
  · exact fun _ m m' balanced same refused =>
      (balanced (mt (Machine.rests_of_inside same).2 refused)).of_inside same
  · intro ps ran m m' reachable idle balanced took refused
    obtain ⟨sound, settled⟩ := reachable.sound_of_idle idle
    have rests := reachable.rests_step
    rw [after_of_ok took] at rests
    exact (balanced (mt rests.2 refused)).step_of_refused sound settled (mt rests.2 refused) took
  · exact fun m _ empty _ metrics _ => .create empty metrics
  · exact fun _ _ m m' _ balanced load refused => (balanced (mt load.rests.2 refused)).load load

/-- As long as no request ends in a fault, nobody has the processor between them, and it was given away
once for every process that ended and for every wait that was refused. -/
theorem History.switches {ps : List Program} {l : List Execution} {m : Machine} (h : History ps l m)
    (long : ∀ P ∈ ps, (P.lines.length : Int) ≤ m.quantum) (unbroken : Unbroken ps m) :
    m.metrics.contextSwitches = m.scheduler.terminated.length + l.countP Execution.blocked := by
  obtain ⟨sound, settled⟩ := h.reachable.sound_of_idle unbroken.idle
  have balanced : Balanced l m := by
    by_cases rests : m.Rests
    · exact h.balanced rests long
    · -- whoever executes something in vain has the processor
      have nothing : l = [] := List.eq_nil_iff_forall_not_mem.2 fun e he => by
        cases unbroken.idle.symm.trans ((h.vain rests).executed e he)
      exact nothing ▸ unbroken.balanced rests
  rw [Balanced, sound.queue_running settled, unbroken.idle] at balanced
  exact balanced.trans (Int.add_zero _)

end RoundRobin
