import Mathlib.Data.Finset.Max
import RoundRobin.Proofs.Termination

/-!
# Standstill

What lies ahead of a machine between requests of which none ended in a fault (`Unbroken`), so that
nobody has the processor. As long as nobody is ready and nobody is released, a step does nothing but
count a tick (`Waits.step`). So a machine that is deadlocked only counts ticks for ever, and one
that is not counts those up to the next release and then gives the processor to a process
(`Unbroken.standstill`).
-/

namespace RoundRobin

open Operation

namespace Scheduler

/-- A promotion changes nothing if nobody is due. -/
theorem promoteEach_of_early {s : Scheduler} {now : Int} {keys : List Int}
    (early : ∀ key ∈ keys, ∃ p, s.process? key = some p ∧ now < p.releaseTime) :
    promoteEach now s keys = (.ok [], s) := by
  induction keys with
  | nil => rfl
  | cons key rest ih =>
    obtain ⟨p, known, later⟩ := early key List.mem_cons_self
    have known' : s.processes.process? key = some p := known
    have undue : ¬p.releaseTime ≤ now := Int.not_le.2 later
    simp only [promoteEach, known', if_neg undue]
    exact ih fun other hother => early other (List.mem_cons_of_mem key hother)

end Scheduler

namespace Machine

/-- The machine after some ticks in which nothing happened. -/
def idled (m : Machine) (n : Nat) : Machine :=
  { m with
    clock := ⟨m.now + n⟩
    metrics := { m.metrics with totalTicks := m.metrics.totalTicks + n } }

theorem idled_zero (m : Machine) : m.idled 0 = m := by
  simp [idled, now]

theorem idled_idled (m : Machine) (k n : Nat) : (m.idled k).idled n = m.idled (k + n) := by
  simp [idled, now, Int.add_assoc]

theorem promote_of_unmoved {m : Machine} (unmoved : m.scheduler.promote m.now = (.ok [], m.scheduler)) :
    promote m = .ok () m :=
  (promote_apply unmoved).trans (congrArg (EStateM.Result.ok ()) m.recordAll_nil)

/-- The ticks until the process under a key is released. -/
def ticksUntil (m : Machine) (key : Int) : Nat :=
  (m.scheduler.process? key).elim 0 fun p => (p.releaseTime - m.now).toNat

theorem ticksUntil_eq {m : Machine} {key : Int} {p : ControlBlock}
    (known : m.scheduler.process? key = some p) :
    m.ticksUntil key = (p.releaseTime - m.now).toNat := by
  rw [ticksUntil, known]
  rfl

/-- Nobody has the processor or is ready, and nobody is released for some ticks. -/
structure Waits (m : Machine) (n : Nat) : Prop where
  idle : m.current = none
  nobody : m.scheduler.queue .ready = []
  early : ∀ key ∈ m.scheduler.queue .pending,
    ∃ p, m.scheduler.process? key = some p ∧ n ≤ (p.releaseTime - m.now).toNat

namespace Waits

variable {m : Machine} {n : Nat}

/-- A step in which nothing happens counts a tick. -/
theorem step (h : m.Waits (n + 1)) : Machine.step m = .ok false (m.idled 1) := by
  have promoted : Machine.promote m = .ok () m := by
    apply Machine.promote_of_unmoved
    apply Scheduler.promoteEach_of_early
    intro key waits
    obtain ⟨p, known, later⟩ := h.early key waits
    exact ⟨p, known, by omega⟩
  have occupied : occupy m = .ok () m := by
    have ready : m.scheduler.ready = [] := h.nobody
    unfold occupy
    rw [bind_apply, get_apply]
    dsimp only
    rw [ready, if_neg (by simp)]
    rfl
  rw [step_eq promoted occupied, proceed_of_idle h.idle]
  rfl

theorem next (h : m.Waits (n + 1)) : (m.idled 1).Waits n := by
  refine ⟨h.idle, h.nobody, fun key waits => ?_⟩
  obtain ⟨p, known, later⟩ := h.early key waits
  have now : (m.idled 1).now = m.now + 1 := rfl
  exact ⟨p, known, by omega⟩

/-- Steps in which nothing happens count ticks. -/
theorem steps (h : m.Waits n) : Machine.steps n m = .ok () (m.idled n) := by
  induction n generalizing m with
  | zero =>
    rw [idled_zero]
    rfl
  | succ n ih => rw [steps_succ h.step, ih h.next, idled_idled, Nat.add_comm]

/-- In a deadlock nothing happens for ever. -/
theorem of_isDeadlocked (stuck : m.isDeadlocked) (n : Nat) : m.Waits n := by
  obtain ⟨idle, nobody, nothing, -⟩ := m.isDeadlocked_iff.1 stuck
  refine ⟨idle, nobody, fun key waits => ?_⟩
  rw [nothing] at waits
  cases waits

end Waits

/-- The next step gives the idle processor to the process under a key. -/
def Dispatches (m : Machine) (key : Int) : Prop :=
  ∃ m₁ m₂, promote m = .ok () m₁ ∧ m₁.current = none ∧ occupy m₁ = .ok () m₂ ∧ m₂.Runs key ∧
    m₂.metrics.contextSwitches = m₁.metrics.contextSwitches + 1 ∧ step m = proceed m₂

end Machine

/-- The process that takes the processor after the promotion is dispatched. -/
theorem Promotion.dispatches {m m₁ m₂ : Machine} {key : Int} (promotion : Promotion m m₁)
    (promoted : Machine.promote m = .ok () m₁) (idle : m.current = none)
    (run : Machine.occupy m₁ = .ok () m₂) (occupied : Occupied key m₁ m₂) : m.Dispatches key := by
  have idle₁ : m₁.current = none := promotion.current.trans idle
  refine ⟨m₁, m₂, promoted, idle₁, run, occupied.runs (.of_idle idle₁), ?_,
    Machine.step_eq promoted run⟩
  rw [occupied.metrics, if_pos idle₁]

/-- The machines to which requests lead of which none ended in a fault. -/
inductive Unbroken : List Program → Machine → Prop where
  | create {quantum : Setting} {memorySize : Int} {verbose : Bool} {delay : Binary64}
    {storage : Storage} {inputs : List String} {sleep : Sleep} {m : Machine}
    (made : Machine.create? quantum memorySize verbose delay storage inputs sleep = .ok m) :
    Unbroken [] m
  | load {ps : List Program} {lines : List String} {release : Setting} {time key : Int}
    {m m' : Machine} (before : Unbroken ps m) (given : release.integer? = some time)
    (loaded : Machine.createProcess lines release m = .ok key m') :
    Unbroken (ps ++ [⟨lines, time⟩]) m'
  | step {ps : List Program} {ran : Bool} {m m' : Machine} (before : Unbroken ps m)
    (took : Machine.step m = .ok ran m') : Unbroken ps m'
  | run {ps : List Program} {limit : Option Int} {time : Int} {m m' : Machine}
    (before : Unbroken ps m) (ended : Machine.run limit m = .ok time m') : Unbroken ps m'
  | outside {ps : List Program} {m : Machine} (before : Unbroken ps m) (storage : Storage)
    (inputs : List String) : Unbroken ps { m with storage, inputs }

namespace Sound

variable {ps : List Program} {m m' : Machine}

theorem idled (h : Sound ps m) (n : Nat) : Sound ps (m.idled n) :=
  ⟨h.layout.of_place rfl rfl rfl rfl fun _ p known => ⟨p, known, rfl⟩, h.orderly,
    h.processor.running, h.processor.current⟩

/-- The idle processor is given away after the promotion if somebody is ready or due. -/
theorem occupied_of_somebody (h : Sound ps m) (somebody : m.scheduler.queue .ready ≠ [] ∨
      ∃ key ∈ m.scheduler.queue .pending, m.ticksUntil key = 0) :
    ∃ key m₁ m₂, Machine.promote m = .ok () m₁ ∧ Promotion m m₁ ∧
      Machine.occupy m₁ = .ok () m₂ ∧ Occupied key m₁ m₂ := by
  obtain ⟨m₁, promoted, promotion⟩ := h.promote_works
  have ready : m₁.scheduler.queue .ready ≠ [] := by
    rw [promotion.ready]
    intro nobody
    obtain ⟨nobody, nothing⟩ := List.append_eq_nil_iff.1 nobody
    rcases somebody with waits | ⟨key, waits, come⟩
    · exact waits nobody
    · obtain ⟨p, known, -⟩ := h.orderly.process?_of_mem waits
      rw [Machine.ticksUntil_eq known] at come
      have due := List.filter_eq_nil_iff.1 nothing key waits
      rw [Scheduler.due_eq known, decide_eq_true_eq] at due
      omega
  rcases (h.works promotion.works).occupy_cases with ⟨key, m₂, run, occupied⟩ | ⟨-, -, nobody⟩
  · exact ⟨key, m₁, m₂, promoted, promotion, run, occupied⟩
  · exact absurd nobody ready

/-- A step gives the idle processor away if somebody is ready or due. -/
theorem dispatches (h : Sound ps m) (idle : m.current = none)
    (somebody : m.scheduler.queue .ready ≠ [] ∨
      ∃ key ∈ m.scheduler.queue .pending, m.ticksUntil key = 0) : ∃ key, m.Dispatches key := by
  obtain ⟨key, m₁, m₂, promoted, promotion, run, occupied⟩ := h.occupied_of_somebody somebody
  exact ⟨key, promotion.dispatches promoted idle run occupied⟩

end Sound

namespace Unbroken

variable {ps : List Program} {m : Machine}

theorem reachable (h : Unbroken ps m) : Reachable ps m := by
  induction h with
  | create made => exact .create made
  | load _ given loaded ih => exact ih.load given (.inl ⟨_, loaded⟩)
  | step _ took ih => exact after_of_ok took ▸ ih.step
  | run _ ended ih => exact after_of_ok ended ▸ ih.run _
  | outside _ storage inputs ih => exact ih.outside storage inputs

theorem fresh (quantum : Int) (size : Nat) (positive : 0 < quantum) (some_slot : 0 < size) :
    Unbroken [] (Machine.fresh quantum size) :=
  .create (Machine.create?_fresh quantum size positive some_slot)

theorem after_createProcess (before : Unbroken ps m) (lines : List String) (time : Int)
    (short : Integer.isWritable time) (released : 0 ≤ time)
    (fits : m.nextAddress + lines.length + 2 < m.memory.size) :
    Unbroken (ps ++ [⟨lines, time⟩]) (after (Machine.createProcess lines (.whole time)) m) := by
  obtain ⟨key, result⟩ := before.reachable.layout.createProcess_after lines short released fits
  exact before.load rfl result

theorem after_step (before : Unbroken ps m) (fine : isOk Machine.step m) :
    Unbroken ps (after Machine.step m) := by
  obtain ⟨ran, took⟩ := ok_after fine
  exact before.step took

section

variable {Q : List Program → Machine → Prop}
  (inside : ∀ ps m m', Q ps m → m'.inside = m.inside → Q ps m')
  (step : ∀ ps ran m m', Reachable ps m → m.current = none → Q ps m →
    Machine.step m = .ok ran m' → Q ps m')

include inside step

/-- What is kept by every step from an idle processor is kept by a run that does not end in a fault,
and the processor is idle at its end. -/
theorem of_runSteps (h : Reachable ps m) (idle : m.current = none) (holds : Q ps m) {m' : Machine}
    {limit : Option Int} {left taken : Nat}
    (ended : Machine.runSteps limit left taken m = .ok () m') : m'.current = none ∧ Q ps m' := by
  have course := Machine.runSteps_course limit left taken m
  rw [ended] at course
  clear ended
  generalize result : EStateM.Result.ok () m' = outcome at course
  induction course with
  | terminated all =>
    cases result
    exact ⟨idle, holds⟩
  | deadlocked | stopped =>
    cases result
    exact ⟨idle, inside _ _ _ holds rfl⟩
  | unending | fault => cases result
  | step took rest ih =>
    obtain ⟨sound, settled⟩ := h.sound_of_idle idle
    have idle' := sound.idle_of_step settled took
    exact ih (after_of_ok took ▸ h.step) idle' (step _ _ _ _ h idle holds took) result

/-- What holds of a machine that was just made and looks at nothing but the inside, and is kept by
loading and by every step from an idle processor that does not end in a fault, holds between such
requests. Nobody has the processor then. -/
theorem invariant
    (create : ∀ m, Sound [] m → m.scheduler = {} → m.clock = {} → m.metrics = {} → Q [] m)
    (load : ∀ ps P m m', Sound ps m → Q ps m → Load P m m' → Q (ps ++ [P]) m')
    (h : Unbroken ps m) : m.current = none ∧ Q ps m := by
  induction h with
  | create made =>
    obtain ⟨sound, idle, empty, clock, metrics⟩ := Sound.create made
    exact ⟨idle, create _ sound empty clock metrics⟩
  | load before given loaded ih =>
    obtain ⟨m₁, load', same⟩ := Machine.load_of_createProcess given loaded
    have holds := load _ _ _ _ (before.reachable.sound_of_idle ih.1).1 ih.2 load'
    refine ⟨(Machine.current_of_inside same).trans ?_, inside _ _ _ holds same⟩
    obtain ⟨-, -, -⟩ := load'
    exact ih.1
  | step before took ih =>
    obtain ⟨sound, settled⟩ := before.reachable.sound_of_idle ih.1
    exact ⟨sound.idle_of_step settled took, step _ _ _ _ before.reachable ih.1 ih.2 took⟩
  | @run ps limit time m m' before ended ih =>
    have started := before.reachable.notice (.started m.quantum)
    by_cases long : ¬Integer.isWritable m.quantum
    · rw [Machine.run_of_long long] at ended
      cases ended
    rw [Machine.run_eq (not_not.1 long)] at ended
    split at ended
    · rename_i m₁ steps
      cases ended
      exact of_runSteps inside step started ih.1 (inside _ _ _ ih.2 rfl) steps
    · cases ended
  | outside _ storage inputs ih => exact ⟨ih.1, inside _ _ _ ih.2 rfl⟩

end

/-- Nobody has the processor between such requests. -/
theorem idle (h : Unbroken ps m) : m.current = none :=
  (invariant (Q := fun _ _ => True) (fun _ _ _ _ _ => trivial) (fun _ _ _ _ _ _ _ _ => trivial)
    (fun _ _ _ _ _ => trivial) (fun _ _ _ _ _ _ _ => trivial) h).1

/-- A machine some of whose processes are not terminated is deadlocked exactly if nothing will ever
happen again. If it is, every further step counts a tick and does nothing else. If it is not, a step
gives the processor to a process: the next one if somebody is ready, else, after steps that count
ticks and do nothing else, one at the time when the first of the pending processes is released. -/
theorem standstill (h : Unbroken ps m) (unfinished : ¬m.allTerminated) :
    (m.isDeadlocked → ∀ n, Machine.steps n m = .ok () (m.idled n) ∧
      Machine.step (m.idled n) = .ok false (m.idled (n + 1)) ∧ (m.idled n).isDeadlocked) ∧
    (¬m.isDeadlocked → ∃ n key, Machine.steps n m = .ok () (m.idled n) ∧
      (m.idled n).Dispatches key ∧ (m.scheduler.ready ≠ [] → n = 0) ∧
      (m.scheduler.ready = [] → m.scheduler.pending ≠ [] ∧ ∀ other ∈ m.scheduler.pending,
        ∀ p, m.scheduler.process? other = some p → n ≤ (p.releaseTime - m.now).toNat)) := by
  have idle := h.idle
  obtain ⟨sound, settled⟩ := h.reachable.sound_of_idle idle
  constructor
  · intro stuck n
    have stuck' : (m.idled n).isDeadlocked := stuck
    refine ⟨(Machine.Waits.of_isDeadlocked stuck n).steps, ?_, stuck'⟩
    rw [(Machine.Waits.of_isDeadlocked stuck' 1).step, Machine.idled_idled]
  · intro alive
    by_cases nobody : m.scheduler.queue .ready = []
    · have waiting : m.scheduler.queue .pending ≠ [] := fun nothing =>
        absurd (sound.finished_of_empty idle nobody nothing) (not_or.2 ⟨unfinished, alive⟩)
      obtain ⟨first, waits, least⟩ := (m.scheduler.queue .pending).toFinset.exists_min_image
        m.ticksUntil (List.toFinset_nonempty_iff _ |>.2 waiting)
      rw [List.mem_toFinset] at waits
      have early : ∀ other ∈ m.scheduler.queue .pending, ∀ p,
          m.scheduler.process? other = some p →
            m.ticksUntil first ≤ (p.releaseTime - m.now).toNat := by
        intro other waits' p known
        rw [← Machine.ticksUntil_eq known]
        exact least other (List.mem_toFinset.2 waits')
      have quiet : m.Waits (m.ticksUntil first) := by
        refine ⟨idle, nobody, fun other waits' => ?_⟩
        obtain ⟨p, known, -⟩ := sound.orderly.process?_of_mem waits'
        exact ⟨p, known, early other waits' p known⟩
      have come : (m.idled (m.ticksUntil first)).ticksUntil first = 0 := by
        obtain ⟨p, known, -⟩ := sound.orderly.process?_of_mem waits
        have now : (m.idled (m.ticksUntil first)).now = m.now + m.ticksUntil first := rfl
        rw [Machine.ticksUntil_eq (m := m.idled _) known, now, Machine.ticksUntil_eq known]
        omega
      obtain ⟨key, dispatches⟩ := (sound.idled (m.ticksUntil first)).dispatches idle
        (.inr ⟨first, waits, come⟩)
      exact ⟨m.ticksUntil first, key, quiet.steps, dispatches, absurd nobody,
        fun _ => ⟨waiting, early⟩⟩
    · obtain ⟨key, dispatches⟩ := sound.dispatches idle (.inl nobody)
      refine ⟨0, key, ?_, ?_, fun _ => rfl, fun nobody' => absurd nobody' nobody⟩
      · exact congrArg (EStateM.Result.ok ()) m.idled_zero.symm
      · rwa [Machine.idled_zero]

/-- A process that asks twice for one resource is blocked for ever, and one that is released at
time three is given the processor by then. -/
theorem standstill_blocked :
    (∃ m, Unbroken [⟨["semWait file", "semWait file"], 0⟩] m ∧ m.isDeadlocked ∧
      ∀ n, Machine.steps n m = .ok () (m.idled n)) ∧
    ∃ m, Unbroken [⟨["semWait file", "semWait file"], 3⟩] m ∧
      ∃ n key, n ≤ 3 ∧ Machine.steps n m = .ok () (m.idled n) ∧ (m.idled n).Dispatches key := by
  have made := Unbroken.fresh 2 10 (by decide) (by decide)
  have first := made.after_createProcess ["semWait file", "semWait file"] 0 (by decide) (by decide)
    (by decide)
  have stuck := first.after_step (by decide +kernel)
  have late := made.after_createProcess ["semWait file", "semWait file"] 3 (by decide) (by decide)
    (by decide)
  constructor
  · have quiet := (stuck.standstill (by decide +kernel)).1 (by decide +kernel)
    exact ⟨_, stuck, by decide +kernel, fun n => (quiet n).1⟩
  · obtain ⟨n, key, steps, dispatches, -, early⟩ :=
      (late.standstill (by decide +kernel)).2 (by decide +kernel)
    have soon := (early (by decide +kernel)).2 1 (by decide +kernel) _ rfl
    exact ⟨_, late, n, key, soon, steps, dispatches⟩

end Unbroken

end RoundRobin
