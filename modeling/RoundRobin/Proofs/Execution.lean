import RoundRobin.Proofs.Reachable
import RoundRobin.Proofs.Spell

/-!
# Executed instructions

What a step executes, read off the machine between the instructions of its turn: an instruction was
executed between two such moments if one more is counted of the process on the processor
(`Machine.executed?`). A `History` is a sequence of requests with all that was executed on the way,
and every machine to which requests lead has one (`Reachable.exists_history`).

A turn executes its instructions one after the other (`Sound.runInstructions_first`), so what holds
of all that was executed is shown by looking at one instruction that completes and one that blocks
its process.
-/

namespace RoundRobin

open Operation

/-- An instruction that was executed by a process. -/
structure Execution where
  /-- The number of the process. -/
  key : Int
  /-- The address of the instruction. -/
  address : Int
  instruction : Instruction
  /-- Whether the process was blocked by it. -/
  blocked : Bool
  /-- The numbers of the processes that were woken by it. -/
  woken : List Int
  deriving DecidableEq, Repr

/-- The processes that are blocked in a scheduler and ready in a later one. -/
def Scheduler.woken (s s' : Scheduler) : List Int :=
  (Resource.all.flatMap s.blocked).filter fun key => key ∈ s'.ready

namespace Machine

/-- The instruction that was executed between two moments of a turn: that at which the process on the
processor stood, if one more is counted of the process. -/
def executed? (m m' : Machine) : Option Execution := do
  let key ← m.current
  let p ← m.scheduler.process? key
  let p' ← m'.scheduler.process? key
  let (_, instruction) ← m.memory.instructionSlot? p.pc
  if p'.executed = p.executed + 1 then
    some { key, address := p.pc, instruction, blocked := p'.state = .blocked,
           woken := m.scheduler.woken m'.scheduler }
  else none

/-- What a step executes, one after the other. -/
def executions (m : Machine) : List Execution :=
  (List.range m.quantum.toNat).filterMap fun k =>
    executed? (after (beginStep k) m) (after (beginStep (k + 1)) m)

/-- The machine with other files and another input. -/
def fed (m : Machine) (storage : Storage) (inputs : List String) : Machine :=
  { m with storage, inputs }

end Machine

/-- The machines to which requests lead, with the programs that were loaded and all that was
executed, in order. Requests other than loading and steps execute nothing and leave the inside of the
machine as it is. -/
inductive History : List Program → List Execution → Machine → Prop where
  | create {quantum : Setting} {memorySize : Int} {verbose : Bool} {delay : Binary64}
    {storage : Storage} {inputs : List String} {sleep : Sleep} {m : Machine}
    (made : Machine.create? quantum memorySize verbose delay storage inputs sleep = .ok m) :
    History [] [] m
  | load {ps : List Program} {l : List Execution} {lines : List String} {release : Setting}
    {time : Int} {m m' : Machine} (before : History ps l m)
    (given : release.integer? = some time) (admits : m.Admits lines release m') :
    History (ps ++ [⟨lines, time⟩]) l m'
  | step {ps : List Program} {l : List Execution} {m : Machine} (before : History ps l m) :
    History ps (l ++ m.executions) (after Machine.step m)
  | outside {ps : List Program} {l : List Execution} {m m' : Machine} (before : History ps l m)
    (reached : Reachable ps m') (same : m'.inside = m.inside) : History ps l m'

namespace History

variable {ps : List Program} {l : List Execution} {m : Machine}

theorem reachable (h : History ps l m) : Reachable ps m := by
  induction h with
  | create made => exact .create made
  | load _ given admits ih => exact ih.load given admits
  | step _ ih => exact ih.step
  | outside _ reached => exact reached

theorem fresh (quantum : Int) (size : Nat) (positive : 0 < quantum) (some_slot : 0 < size) :
    History [] [] (Machine.fresh quantum size) :=
  .create (Machine.create?_fresh quantum size positive some_slot)

theorem after_createProcess (before : History ps l m) (lines : List String) (time : Int)
    (released : 0 ≤ time) (fits : m.nextAddress + lines.length + 2 < m.memory.size) :
    History (ps ++ [⟨lines, time⟩]) l (after (Machine.createProcess lines (.whole time)) m) :=
  before.load rfl (before.reachable.layout.admits lines released fits)

/-- The files and the input change between requests. -/
theorem fed (h : History ps l m) (storage : Storage) (inputs : List String) :
    History ps l (m.fed storage inputs) :=
  h.outside (h.reachable.outside storage inputs) rfl

/-- A run consists of steps, also if it ends in a fault. -/
theorem runSteps (h : History ps l m) (limit : Option Int) (left taken : Nat) :
    ∃ l', History ps l' (after (Machine.runSteps limit left taken) m) := by
  have course := Machine.runSteps_course limit left taken m
  unfold after
  generalize Machine.runSteps limit left taken m = result at course ⊢
  induction course generalizing l with
  | terminated | unending => exact ⟨l, h⟩
  | deadlocked | stopped => exact ⟨l, h.outside (h.reachable.notice _) rfl⟩
  | fault raised =>
    have stepped := h.step
    rw [after_of_error raised] at stepped
    exact ⟨_, stepped⟩
  | step took rest ih =>
    have stepped := h.step
    rw [after_of_ok took] at stepped
    exact ih stepped

end History

/-- Wherever requests lead, something or nothing was executed on the way. -/
theorem Reachable.exists_history {ps : List Program} {m : Machine} (h : Reachable ps m) :
    ∃ l, History ps l m := by
  induction h with
  | create made => exact ⟨[], .create made⟩
  | load _ given admits ih =>
    obtain ⟨l, before⟩ := ih
    exact ⟨l, before.load given admits⟩
  | @refuse ps lines release fault m m' before refused known ih =>
    obtain ⟨l, history⟩ := ih
    obtain rfl := Machine.eq_of_refused refused known
    exact ⟨l, history⟩
  | step _ ih =>
    obtain ⟨l, before⟩ := ih
    exact ⟨_, before.step⟩
  | @run ps m _ limit ih =>
    obtain ⟨l, before⟩ := ih
    have started := before.outside (before.reachable.notice (.started m.quantum)) rfl
    rcases Machine.after_run_cases limit m with same | same
    · rw [same]
      exact ⟨l, before⟩
    · rw [same]
      exact started.runSteps limit _ 0
  | shutdown before chartFile resultsFile ih =>
    obtain ⟨l, history⟩ := ih
    exact ⟨l, history.outside (before.shutdown _ _) (Machine.quiet_shutdown _ _ _)⟩
  | outside before storage inputs ih =>
    obtain ⟨l, history⟩ := ih
    exact ⟨l, history.fed storage inputs⟩
  | notice before n ih =>
    obtain ⟨l, history⟩ := ih
    exact ⟨l, history.outside (before.notice _) rfl⟩

/-! ### What is executed between two moments -/

namespace Machine

variable {ps : List Program} {m m' m₁ : Machine} {key : Int} {p : ControlBlock} {i : Instruction}
  {r : Resource}

theorem executed?_of_inside (same : m₁.inside = m'.inside) : executed? m m₁ = executed? m m' := by
  unfold executed?
  rw [scheduler_of_inside same]

/-- Nothing was executed if nothing changed. -/
theorem executed?_eq_none (same : m'.inside = m.inside) : executed? m m' = none := by
  rw [executed?_of_inside same]
  unfold executed?
  cases m.current with
  | none => rfl
  | some key =>
    cases known : m.scheduler.process? key with
    | none => simp [known]
    | some p =>
      have one_more : ¬p.executed = p.executed + 1 := by omega
      simp [known, one_more]

/-- The process on the processor executed the instruction at which it stood if one more is counted of
it. -/
theorem executed?_of_counted (current : m.current = some key)
    (known : m.scheduler.process? key = some p)
    (instruction : (m.memory.instructionSlot? p.pc).map Prod.snd = some i) {p' : ControlBlock}
    (known' : m'.scheduler.process? key = some p') (counted : p'.executed = p.executed + 1) :
    executed? m m' = some ⟨key, p.pc, i, p'.state = .blocked, m.scheduler.woken m'.scheduler⟩ := by
  obtain ⟨⟨slot, i'⟩, at_pc, same⟩ := Option.map_eq_some_iff.1 instruction
  cases same
  simp [executed?, current, known, known', at_pc, counted]

theorem executed?_of_facing (facing : Facing m key p i) {p' : ControlBlock}
    (known : m'.scheduler.process? key = some p') (counted : p'.executed = p.executed + 1) :
    executed? m m' = some ⟨key, p.pc, i, p'.state = .blocked, m.scheduler.woken m'.scheduler⟩ :=
  executed?_of_counted facing.current facing.known facing.instruction known counted

theorem executed?_of_completion (h : Sound ps m) (c : Completion key p i m m') :
    executed? m m' = some ⟨key, p.pc, i, false, m.scheduler.woken m'.scheduler⟩ := by
  obtain ⟨n, known⟩ := c.known h
  refine (executed?_of_facing c.facing known rfl).trans ?_
  simp [c.facing.runs]

theorem executed?_of_blocking (b : Blocking key p r m m') :
    executed? m m' = some ⟨key, p.pc, .semWait r, true, m.scheduler.woken m'.scheduler⟩ :=
  executed?_of_facing b.facing b.known rfl

/-- What a turn of the process under a key executes in at most a number of instructions. -/
def turnExecutions (key : Int) (n : Nat) (m : Machine) : List Execution :=
  (List.range n).filterMap fun k =>
    executed? (after (runInstructions key k) m) (after (runInstructions key (k + 1)) m)

theorem turnExecutions_succ (key : Int) (n : Nat) (m : Machine) :
    turnExecutions key (n + 1) m = (executed? m (after (runInstructions key 1) m)).toList ++
      (List.range n).filterMap fun k => executed? (after (runInstructions key (k + 1)) m)
        (after (runInstructions key (k + 1 + 1)) m) := by
  have first : after (runInstructions key 0) m = m := rfl
  unfold turnExecutions
  rw [List.range_succ_eq_map, List.filterMap_cons, List.filterMap_map, Nat.zero_add, first]
  cases executed? m (after (runInstructions key 1) m) <;> rfl

/-- If a turn is over after its first instruction, it executed that instruction or nothing. -/
theorem turnExecutions_of_over (ends : ∀ n, after (runInstructions key (n + 1)) m = m₁) (n : Nat) :
    turnExecutions key (n + 1) m = (executed? m m₁).toList := by
  have nothing : ∀ k ∈ List.range n, executed? (after (runInstructions key (k + 1)) m)
      (after (runInstructions key (k + 1 + 1)) m) = none := by
    intro k _
    rw [ends, ends]
    exact executed?_eq_none rfl
  rw [turnExecutions_succ, List.filterMap_eq_nil_iff.2 nothing, List.append_nil, ends]

/-- If a turn goes on after its first instruction, it executed that instruction and then what it
executes from there. -/
theorem turnExecutions_of_on
    (on : ∀ n, after (runInstructions key (n + 1)) m = after (runInstructions key n) m₁) (n : Nat) :
    turnExecutions key (n + 1) m = (executed? m m₁).toList ++ turnExecutions key n m₁ := by
  have first : after (runInstructions key 1) m = m₁ := on 0
  rw [turnExecutions_succ, first]
  refine congrArg (_ ++ ·) (List.filterMap_congr fun k _ => ?_)
  rw [on, on]

end Machine

namespace Sound

variable {ps : List Program} {m : Machine} {key : Int}

/-- Unless the pauses are refused, a turn is over at the end of the program and after a fault, or it is
over because its first instruction blocks the process, or that instruction completes and the turn goes
on from there. -/
theorem runInstructions_first (h : Sound ps m) (rests : m.Rests) (runs : m.Runs key) :
    (∃ m₁, m₁.inside = m.inside ∧ ∀ n, after (Machine.runInstructions key (n + 1)) m = m₁) ∨
    (∃ p r m₁ m₂, Blocking key p r m m₁ ∧ m₂.inside = m₁.inside ∧
      ∀ n, after (Machine.runInstructions key (n + 1)) m = m₂) ∨
    ∃ p i m₁ m₂, Completion key p i m m₁ ∧ m₂.inside = m₁.inside ∧
      ∀ n, after (Machine.runInstructions key (n + 1)) m = after (Machine.runInstructions key n) m₂ := by
  cases h.opening runs with
  | ends at_end halts => exact .inl ⟨m, rfl, fun n => after_of_ok (halts n)⟩
  | fault facing same halts => exact .inl ⟨_, same, fun n => after_of_error (halts n)⟩
  | hindered _ hindered => exact absurd rests hindered.refused
  | blocks _ blocking same halts =>
    exact .inr (.inl ⟨_, _, _, _, blocking, same, fun n => after_of_ok (halts n)⟩)
  | goes _ completion same on =>
    refine .inr (.inr ⟨_, _, _, _, completion, same, fun n => ?_⟩)
    unfold after
    rw [on]

end Sound

namespace Machine

variable {m m₁ m₂ : Machine} {key : Int}

theorem executions_of_busy (promoted : promote m = .ok () m₁) (occupied : occupy m₁ = .ok () m₂)
    (busy : m₂.current = some key) :
    m.executions = turnExecutions key m.quantum.toNat m₂ := by
  unfold executions turnExecutions
  refine List.filterMap_congr fun k _ => ?_
  rw [after_beginStep_of_busy promoted occupied busy, after_beginStep_of_busy promoted occupied busy]

theorem executions_of_idle (promoted : promote m = .ok () m₁) (occupied : occupy m₁ = .ok () m₂)
    (idle : m₂.current = none) : m.executions = [] := by
  unfold executions
  refine List.filterMap_eq_nil_iff.2 fun k _ => ?_
  rw [after_beginStep_of_idle promoted occupied idle, after_beginStep_of_idle promoted occupied idle]
  exact executed?_eq_none rfl

end Machine

/-! ### What comes of what is executed -/

section

variable {ps : List Program} {Q : List Execution → Machine → Prop}
  (inside : ∀ l m m', Q l m → m'.inside = m.inside → Q l m')
  (complete : ∀ {l m m' key p i}, Sound ps m → Q l m → Completion key p i m m' →
    Q (l ++ [⟨key, p.pc, i, false, m.scheduler.woken m'.scheduler⟩]) m')
  (block : ∀ {l m m' key p r}, Sound ps m → Q l m → Blocking key p r m m' →
    Q (l ++ [⟨key, p.pc, .semWait r, true, m.scheduler.woken m'.scheduler⟩]) m')

include inside complete block

/-- What is kept by an instruction that completes and by one that blocks its process is kept by a
turn, unless the pauses are refused. -/
theorem Sound.turn_invariant {m : Machine} {key : Int} {l : List Execution} (h : Sound ps m)
    (rests : m.Rests) (runs : m.Runs key) (start : Q l m) (n : Nat) :
    Q (l ++ m.turnExecutions key n) (after (Machine.runInstructions key n) m) := by
  induction n generalizing l m with
  | zero =>
    rw [show m.turnExecutions key 0 = [] from rfl, List.append_nil]
    exact start
  | succ n ih =>
    rcases h.runInstructions_first rests runs with ⟨m₁, same, ends⟩ |
      ⟨p, r, m₁, m₂, blocking, same, ends⟩ | ⟨p, i, m₁, m₂, completion, same, on⟩
    · rw [Machine.turnExecutions_of_over ends, Machine.executed?_eq_none same, ends]
      exact (List.append_nil l).symm ▸ inside _ _ _ start same
    · rw [Machine.turnExecutions_of_over ends, Machine.executed?_of_inside same,
        Machine.executed?_of_blocking blocking, ends]
      exact inside _ _ _ (block h start blocking) same
    · rw [Machine.turnExecutions_of_on on, Machine.executed?_of_inside same,
        Machine.executed?_of_completion h completion, on, ← List.append_assoc]
      have rests₂ := (Machine.rests_of_inside same).2 (completion.rests.2 rests)
      exact ih ((h.complete completion).of_inside same) rests₂ ((completion.runs h).of_inside same)
        (inside _ _ _ (complete h start completion) same)

end

/-- What a step executes and the machine that it leads to. -/
inductive Executes (ps : List Program) (m : Machine) : List Execution → Machine → Prop where
  | idle {m₁ : Machine} (promotion : Promotion m m₁) (idle : m₁.current = none) :
    Executes ps m [] { m₁ with clock := m₁.clock.tick, metrics := m₁.metrics.countIdle }
  | turn {key : Int} {m₁ m₂ m₃ m₄ m' : Machine} (promotion : Promotion m m₁)
    (occupied : Occupied key m₁ m₂) (sound : Sound ps m₂) (runs : m₂.Runs key)
    (ran : Machine.runInstructions key m₂.quantum.toNat m₂ = .ok () m₃) (sound' : Sound ps m₃)
    (burst : Machine.burst m₂ = .ok key m') (departure : Departure key m₂.now m₃ m₄)
    (same : m'.inside = m₄.inside) : Executes ps m (m₂.turnExecutions key m₂.quantum.toNat) m'
  | fault {key : Int} {fault : Fault} {m₁ m₂ m' : Machine} (promotion : Promotion m m₁)
    (occupied : Occupied key m₁ m₂) (sound : Sound ps m₂) (runs : m₂.Runs key)
    (broke : Machine.runInstructions key m₂.quantum.toNat m₂ = .error fault m')
    (raised : Machine.step m = .error fault m') :
    Executes ps m (m₂.turnExecutions key m₂.quantum.toNat) m'

theorem Sound.executes {ps : List Program} {m : Machine} (h : Sound ps m) (settled : Settled m) :
    Executes ps m m.executions (after Machine.step m) := by
  obtain ⟨m₁, promoted, promotion⟩ := h.promote_works
  have h₁ := h.works promotion.works
  rcases h₁.occupy_cases with ⟨key, m₂, run, occupied⟩ | ⟨run, idle, nobody⟩
  · have runs := occupied.runs (promotion.settled h settled)
    have h₂ := h₁.works occupied.works
    have stepped : after Machine.step m
        = after (do let _ ← Machine.burst; return true : Operation Bool) m₂ := by
      unfold after
      rw [Machine.step_eq promoted run, Machine.proceed_of_busy runs.1]
    rw [Machine.executions_of_busy promoted run runs.1, ← promotion.quantum, ← occupied.quantum,
      stepped]
    rcases h₂.burst_cases runs with
      ⟨m₃, m₄, m', ran, burst, stretch, departure, same⟩ | ⟨fault, m', ran, burst, -⟩
    · rw [after_bind_of_ok burst]
      exact .turn promotion occupied h₂ runs ran (h₂.works stretch.works) burst departure same
    · rw [after_bind_of_error burst]
      refine .fault promotion occupied h₂ runs ran ?_
      rw [Machine.step_eq promoted run, Machine.proceed_of_busy runs.1, bind_apply, burst]
  · have stepped := after_of_ok ((Machine.step_eq promoted run).trans (Machine.proceed_of_idle idle))
    rw [Machine.executions_of_idle promoted run idle, stepped]
    exact .idle promotion idle

end RoundRobin
