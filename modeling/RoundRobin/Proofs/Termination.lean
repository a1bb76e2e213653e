import Mathlib.Algebra.Order.BigOperators.Group.List
import Mathlib.Algebra.Order.Ring.Nat
import RoundRobin.Proofs.Horizon

/-!
# Every run comes to its end

As long as a run goes on, each step either takes time, which stays before the horizon, or ends a
process for good (`Sound.step_falls`). So there is a bound on the steps that are left
(`Machine.left`), and a run without a limit is over before they are used up: all processes are
terminated, or none of those left can ever run again, or a step ended in a fault (`Ending`).
-/

namespace RoundRobin

open Operation

namespace Machine

/-- All processes are terminated, or none of those left can ever run again. -/
def Finished (m : Machine) : Prop := m.allTerminated ∨ m.isDeadlocked

/-- A number of steps, one after the other. -/
def steps : Nat → Operation Unit
  | 0 => pure ()
  | n + 1 => do
    let _ ← step
    steps n

/-- A bound on the steps that a run still takes: the ticks up to the horizon and the processes that
are to be terminated. -/
def left (ps : List Program) (m : Machine) : Nat :=
  (m.horizon ps - m.now).toNat + (ps.length - m.terminatedCount)

theorem Finished.of_inside {m m' : Machine} (h : m.Finished) (same : m'.inside = m.inside) :
    m'.Finished := by
  rw [Finished, allTerminated, terminatedCount, isDeadlocked, isIdle, scheduler_of_inside same,
    current_of_inside same]
  exact h

theorem steps_succ {m m' : Machine} {ran : Bool} (first : step m = .ok ran m') (n : Nat) :
    steps (n + 1) m = steps n m' := by
  rw [steps, bind_apply, first]

end Machine

/-- A promotion leaves the ready queue empty only if nobody was ready or pending. -/
theorem Promotion.empty {m m' : Machine} (h : Promotion m m')
    (nobody : m'.scheduler.queue .ready = []) (nothing : m'.scheduler.queue .pending = []) :
    m.scheduler.queue .ready = [] ∧ m.scheduler.queue .pending = [] := by
  rw [h.ready, List.append_eq_nil_iff, List.filter_eq_nil_iff] at nobody
  rw [h.pending, List.filter_eq_nil_iff] at nothing
  refine ⟨nobody.1, List.eq_nil_iff_forall_not_mem.2 fun key waits => ?_⟩
  have late := nobody.2 key waits
  have early := nothing key waits
  cases due : m.scheduler.due m.now key <;> simp [due] at late early

namespace Sound

variable {ps : List Program} {m m' : Machine} {key : Int}

/-- The queues together are as long as there are programs. -/
theorem length_queues (h : Sound ps m) :
    (m.scheduler.queue .running).length + (m.scheduler.queue .ready).length
      + (m.scheduler.queue .pending).length + m.scheduler.blockedCount + m.terminatedCount
      = ps.length :=
  h.orderly.length_queues.trans h.layout.length

theorem now_le_horizon (h : Sound ps m) : m.now ≤ m.horizon ps := by
  have length := h.length_queues
  rw [Machine.horizon]
  omega

/-- If nobody has the processor, is ready or is pending, then nothing is left to do. -/
theorem finished_of_empty (h : Sound ps m) (idle : m.current = none)
    (nobody : m.scheduler.queue .ready = []) (nothing : m.scheduler.queue .pending = []) :
    m.Finished := by
  have length := h.length_queues
  rw [h.queue_running (.of_idle idle), idle, nobody, nothing] at length
  by_cases asleep : m.scheduler.blockedCount = 0
  · left
    rw [Machine.allTerminated, h.layout.length, beq_iff_eq]
    simpa [asleep] using length
  · right
    rw [Machine.isDeadlocked_iff]
    exact ⟨idle, nobody, nothing, Nat.pos_of_ne_zero asleep⟩

/-- A machine that is not finished has a process to terminate. -/
theorem left_pos (h : Sound ps m) (unfinished : ¬m.Finished) : 0 < m.left ps := by
  have length := h.length_queues
  have some_left : m.terminatedCount ≠ ps.length := by
    intro all
    refine unfinished (.inl ?_)
    rw [Machine.allTerminated, h.layout.length, beq_iff_eq]
    exact all
  rw [Machine.left]
  omega

theorem left_lt (h : Sound ps m') (advances : Advances ps m m')
    (grows : m.now < m'.now ∨ m.terminatedCount < m'.terminatedCount) :
    m'.left ps < m.left ps := by
  obtain ⟨now, terminated, horizon⟩ := advances
  have length := h.length_queues
  have early := h.now_le_horizon
  rw [Machine.left, Machine.left]
  omega

/-! ### A step of an unfinished machine -/

/-- A tick before the last release does not move the horizon. -/
theorem advances_of_tick (h : Sound ps m) {metrics : Metrics} {p : ControlBlock}
    (known : m.scheduler.process? key = some p) (early : m.now < p.releaseTime) :
    Advances ps m { m with clock := m.clock.tick, metrics } := by
  obtain ⟨P, hP, placed⟩ := h.layout.lookup known
  have last := Program.release_le_lastRelease (Program.mem_of_under hP)
  have release := placed.release
  refine ⟨Int.le_add_one (Int.le_refl m.now), Nat.le_refl _, ?_⟩
  show max (m.now + 1) (Program.lastRelease ps) + m.scheduler.remaining ps + ps.length
      - m.scheduler.blockedCount ≤ m.horizon ps
  rw [Machine.horizon]
  omega

/-- A turn takes time, or it is the end of a process that had nothing left to do. -/
theorem turn_grows (h : Sound ps m) (runs : m.Runs key) (turn : Turn key m m') :
    m.now < m'.now ∨ m.terminatedCount < m'.terminatedCount := by
  obtain @⟨m₁, m₂, _, stretch, departure, same⟩ := turn
  have positive := h.layout.quantum_pos
  have advances := h.advances stretch.works
  have now : m'.now = m₁.now := (Machine.now_of_inside same).trans departure.now
  cases stretch with
  | blocks done lt blocking same₁ =>
    left
    rw [now, Machine.now_of_inside same₁, blocking.now, done.now]
    omega
  | @stops k _ done le cause =>
    rw [now, done.now]
    rcases Nat.eq_zero_or_pos k with rfl | some_tick
    · right
      have at_end := cause.resolve_left (by omega)
      have ends := departure.terminated_of_atEnd (done.runs h runs) at_end
      rw [← Machine.scheduler_of_inside same] at ends
      refine Nat.lt_of_le_of_lt advances.terminated ?_
      have entered := congrArg List.length ends
      rw [List.length_append] at entered
      exact Nat.lt_of_lt_of_eq (Nat.lt_succ_self _) entered.symm
    · left
      omega

/-- A step of a machine that is not finished takes time or ends a process. -/
theorem step_falls (h : Sound ps m) (settled : Settled m) (unfinished : ¬m.Finished) {ran : Bool}
    (result : Machine.step m = .ok ran m') :
    Advances ps m m' ∧ m'.left ps < m.left ps := by
  have step := h.step_result settled
  have sound' := h.moves (h.after_step settled).1
  rw [after_of_ok result] at sound'
  rw [result] at step
  have falls : Advances ps m m' ∧
      (m.now < m'.now ∨ m.terminatedCount < m'.terminatedCount) := by
    cases step with
    | @idle m₁ _ promotion idle nobody same =>
      have h₁ := h.works promotion.works
      -- somebody is still pending, for else the run would have been over
      have waiting : m₁.scheduler.queue .pending ≠ [] := by
        intro nothing
        obtain ⟨ready, pending⟩ := promotion.empty nobody nothing
        exact unfinished (h.finished_of_empty (promotion.current.symm.trans idle) ready pending)
      obtain ⟨key, waits⟩ := List.exists_mem_of_ne_nil _ waiting
      obtain ⟨p, known, -⟩ := h₁.orderly.process?_of_mem waits
      have before := h.advances promotion.works
      have tick : Advances ps m₁ { m₁ with
          clock := m₁.clock.tick, metrics := m₁.metrics.countIdle } :=
        h₁.advances_of_tick known (promotion.early waits known)
      have ticked := h₁.move (.idle idle nobody fun _ _ => promotion.early)
      have told := ticked.advances_of_work (.outside same)
      refine ⟨(before.trans tick).trans told, .inl ?_⟩
      rw [Machine.now_of_inside same]
      exact Int.lt_add_one_of_le before.now
    | turn promotion occupied turn =>
      have works := promotion.works.trans occupied.works
      have before := h.advances works
      have h₂ := h.works works
      have runs := occupied.runs (promotion.settled h settled)
      refine ⟨before.trans (h₂.advances turn.works), ?_⟩
      rcases h₂.turn_grows runs turn with later | ended
      · exact .inl (Int.lt_of_le_of_lt before.now later)
      · exact .inr (Nat.lt_of_le_of_lt before.terminated ended)
  exact ⟨falls.1, sound'.left_lt falls.1 falls.2⟩

end Sound

/-! ### Whole runs -/

/-- What comes of a run without a limit: after some steps the machine is finished, before the
horizon, or a step ended in a fault. -/
inductive Ending (ps : List Program) (m : Machine) : EStateM.Result Fault Machine Unit → Prop where
  | finished {n : Nat} {m₁ m' : Machine} (few : n ≤ m.left ps)
    (taken : Machine.steps n m = .ok () m₁) (same : m'.inside = m₁.inside)
    (finished : m'.Finished) (early : m'.now ≤ m.horizon ps) : Ending ps m (.ok () m')
  | fault {n : Nat} {fault : Fault} {m₁ m' : Machine} (taken : Machine.steps n m = .ok () m₁)
    (raised : Machine.step m₁ = .error fault m') : Ending ps m (.error fault m')

/-- A step that went well comes before what comes of the rest. -/
theorem Ending.step {ps : List Program} {m m₁ : Machine} {ran : Bool}
    {result : EStateM.Result Fault Machine Unit} (first : Machine.step m = .ok ran m₁)
    (horizon : m₁.horizon ps ≤ m.horizon ps) (left : m₁.left ps < m.left ps)
    (rest : Ending ps m₁ result) : Ending ps m result := by
  cases rest with
  | @finished n _ m' few taken same finished early =>
    exact .finished (by omega) ((Machine.steps_succ first n).trans taken) same finished
      (Int.le_trans early horizon)
  | @fault n _ _ _ taken raised => exact .fault ((Machine.steps_succ first n).trans taken) raised

namespace Sound

variable {ps : List Program} {m : Machine}

/-- A run is over at once if the machine is finished. -/
theorem ending_of_finished (h : Sound ps m) (finished : m.Finished) (fuel taken : Nat) :
    Ending ps m (Machine.runSteps none fuel taken m) := by
  have early := h.now_le_horizon
  rw [Machine.runSteps_eq]
  by_cases all : m.allTerminated
  · rw [if_pos all]
    exact .finished (Nat.zero_le _) rfl rfl finished early
  · rw [if_neg all, if_pos (finished.resolve_left all)]
    exact .finished (Nat.zero_le _) rfl rfl (finished.of_inside rfl) early

/-- A run comes to its end if enough steps may be taken. -/
theorem runSteps_ends (h : Sound ps m) (settled : Settled m) (fuel taken : Nat)
    (enough : m.left ps ≤ fuel) : Ending ps m (Machine.runSteps none fuel taken m) := by
  induction fuel generalizing m taken with
  | zero =>
    have finished : m.Finished := by
      by_contra unfinished
      have := h.left_pos unfinished
      omega
    exact h.ending_of_finished finished 0 taken
  | succ fuel ih =>
    by_cases finished : m.Finished
    · exact h.ending_of_finished finished (fuel + 1) taken
    · have running := not_or.1 finished
      rw [Machine.runSteps_eq, if_neg running.1, if_neg running.2, if_neg (by simp)]
      dsimp only
      rw [bind_apply]
      cases result : Machine.step m with
      | error fault m' => exact .fault (show Machine.steps 0 m = _ from rfl) result
      | ok ran m' =>
        obtain ⟨moves, -⟩ := h.after_step settled
        have settled' := Settled.of_idle (h.idle_of_step settled result)
        rw [after_of_ok result] at moves
        obtain ⟨advances, fewer⟩ := h.step_falls settled finished result
        exact (ih (h.moves moves) settled' (taken + 1) (by omega)).step result advances.horizon fewer

/-! ### Enough steps -/

theorem releases (h : Sound ps m) :
    m.scheduler.processes.map ControlBlock.releaseTime = ps.map Program.release := by
  have length := h.layout.length
  apply List.ext_getElem?
  intro i
  rw [List.getElem?_map, List.getElem?_map]
  by_cases inside : i < m.scheduler.processes.length
  · have known : m.scheduler.process? (i + 1) = some m.scheduler.processes[i] :=
      (m.scheduler.process?_succ i).trans (List.getElem?_eq_getElem inside)
    obtain ⟨P, hP, placed⟩ := h.layout.lookup known
    have at_i := (Program.under_eq_some_iff.1 hP).2
    rw [show ((i : Int) + 1 - 1).toNat = i by omega] at at_i
    rw [at_i, List.getElem?_eq_getElem inside]
    exact congrArg some placed.release
  · rw [List.getElem?_eq_none (by omega), List.getElem?_eq_none (by omega)]
    rfl

/-- The work that is counted for a process is more than the effort of what is ahead of it. -/
theorem effort_le_remainingWork (h : Sound ps m) {p : ControlBlock}
    (hp : p ∈ m.scheduler.processes) :
    (p.releaseTime - m.now).toNat + Instruction.effort (Program.ahead ps p.position) + 2
      ≤ Machine.remainingWork m.now p := by
  obtain ⟨key, known⟩ := Scheduler.process?_of_mem hp
  obtain ⟨P, hP, placed⟩ := h.layout.lookup known
  have upper := placed.holds.upper
  have pc := placed.holds.lower_add_offset
  have inside := placed.holds.offset_le
  have effort := Instruction.effort_le (Program.ahead ps p.position)
  have length : (Program.ahead ps p.position).length = P.lines.length - p.offset := by
    rw [h.position_eq known, Program.ahead, Program.code_eq hP, List.length_drop,
      Program.instructions, List.length_map]
  rw [length] at effort
  rw [Machine.remainingWork]
  omega

/-- The bound on the steps of a run is no smaller than what is left to do. -/
theorem left_le_stepBound (h : Sound ps m) (started : 0 ≤ m.now) : m.left ps ≤ m.stepBound := by
  have each := List.sum_le_sum fun p hp => h.effort_le_remainingWork (p := p) hp
  rw [List.sum_map_add, List.sum_map_add, List.map_const', List.sum_replicate, h.layout.length,
    Nat.nsmul_eq_mul] at each
  have last := Program.lastRelease_sub_le ps started
  have releases := congrArg (fun l => (l.map fun r : Int => (r - m.now).toNat).sum) h.releases
  simp only [List.map_map, Function.comp_def] at releases
  have remaining : (m.scheduler.processes.map fun p =>
      Instruction.effort (Program.ahead ps p.position)).sum = m.scheduler.remaining ps := by
    rw [Scheduler.remaining, Scheduler.positions, List.map_map]
    rfl
  rw [remaining, releases] at each
  have bound : m.stepBound = (m.scheduler.processes.map (Machine.remainingWork m.now)).sum
      + 2 * (m.scheduler.queues.flatMap Prod.snd).length + 3 := rfl
  rw [Machine.left, Machine.horizon, bound]
  omega

end Sound

/-! ### From the loading of the programs on -/

/-- The machines that are made by loading programs and nothing else. -/
inductive Loaded : List Program → Machine → Prop where
  | create {quantum : Setting} {memorySize : Int} {verbose : Bool} {delay : Binary64}
    {storage : Storage} {inputs : List String} {sleep : Sleep} {m : Machine}
    (made : Machine.create? quantum memorySize verbose delay storage inputs sleep = .ok m) :
    Loaded [] m
  | load {ps : List Program} {lines : List String} {release : Setting} {time key : Int}
    {m m' : Machine} (before : Loaded ps m) (given : release.integer? = some time)
    (loaded : Machine.createProcess lines release m = .ok key m') :
    Loaded (ps ++ [⟨lines, time⟩]) m'

namespace Program

end Program

theorem Load.remaining {ps : List Program} {P : Program} {m m' : Machine} (h : Sound ps m)
    (load : Load P m m') : m'.scheduler.remaining (ps ++ [P])
      = m.scheduler.remaining ps + Instruction.effort P.instructions := by
  have before : m.scheduler.positions.map (fun x => Instruction.effort (Program.ahead (ps ++ [P]) x))
      = m.scheduler.positions.map fun x => Instruction.effort (Program.ahead ps x) := by
    apply List.map_congr_left
    intro x hx
    rw [Program.ahead, h.code_append_of_mem P hx, ← Program.ahead]
  have number : m.scheduler.processes.nextKey = ps.length + 1 := by
    rw [ProcessTable.nextKey, h.layout.length]
  have whole : Program.ahead (ps ++ [P]) (m.scheduler.processes.nextKey, 0) = P.instructions := by
    rw [Program.ahead, number, Program.code_eq (Program.under_append_last ps P), List.drop_zero]
  rw [Scheduler.remaining, load.positions.1, List.map_append, List.sum_append, before,
    ← Scheduler.remaining, List.map_singleton, List.sum_singleton, whole]

namespace Loaded

variable {ps : List Program} {m : Machine}

theorem reachable (h : Loaded ps m) : Reachable ps m := by
  induction h with
  | create made => exact .create made
  | load _ given loaded ih => exact ih.load given (.inl ⟨_, loaded⟩)

theorem fresh (quantum : Int) (size : Nat) (positive : 0 < quantum) (some_slot : 0 < size) :
    Loaded [] (Machine.fresh quantum size) :=
  .create (Machine.create?_fresh quantum size positive some_slot)

theorem after_createProcess (before : Loaded ps m) (lines : List String) (time : Int)
    (short : Integer.isWritable time) (released : 0 ≤ time)
    (fits : m.nextAddress + lines.length + 2 < m.memory.size) :
    Loaded (ps ++ [⟨lines, time⟩]) (after (Machine.createProcess lines (.whole time)) m) := by
  obtain ⟨key, result⟩ := before.reachable.layout.createProcess_after lines short released fits
  exact before.load rfl result

/-- Nobody has had the processor yet. -/
theorem idle (h : Loaded ps m) : m.current = none := by
  induction h with
  | create made => exact (Sound.create made).2.1
  | load before given loaded ih =>
    obtain ⟨m₁, load, same⟩ := Machine.load_of_createProcess given loaded
    refine (Machine.current_of_inside same).trans ?_
    obtain ⟨-, -, -⟩ := load
    exact ih

theorem sound (h : Loaded ps m) : Sound ps m := (h.reachable.sound_of_idle h.idle).1

end Loaded

end RoundRobin
