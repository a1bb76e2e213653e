import RoundRobin.Proofs.Display
import RoundRobin.Proofs.Records

/-!
# What stays for ever

What was once done is never undone. A process keeps what it was created with and the times that it
has, comes further and counts more, and stays as it is once it has ended (`ControlBlock.Ages`). The
lines of the programs and the names of the variables stay in memory (`Memory.Persists`). The
terminated queue, the records and the slices only grow at their ends, and the clock and the counters
never go back (`Scheduler.Ages`, `Metrics.Grows`). Every move continues what was before it
(`Continues.of_move`), and so does loading a program, so all requests do
(`Reachable.continues_later`).
-/

namespace RoundRobin

open Operation

/-! ### Processes -/

/-- A process and what it is at a later time. -/
structure ControlBlock.Ages (p p' : ControlBlock) : Prop where
  pid : p'.pid = p.pid
  quantum : p'.quantum = p.quantum
  release : p'.releaseTime = p.releaseTime
  lower : p'.lowerBound = p.lowerBound
  upper : p'.upperBound = p.upperBound
  start : ∀ t, p.startTime = some t → p'.startTime = some t
  stop : ∀ t, p.endTime = some t → p'.endTime = some t
  pc : p.pc ≤ p'.pc
  bound : p.bound ≤ p'.bound
  executed : p.executed ≤ p'.executed
  /-- A process that has ended is never touched again. -/
  final : p.state = .terminated → p' = p

namespace ControlBlock.Ages

variable {p p' p'' : ControlBlock}

theorem refl (p : ControlBlock) : p.Ages p :=
  ⟨rfl, rfl, rfl, rfl, rfl, fun _ => id, fun _ => id, Int.le_refl _, Int.le_refl _, Int.le_refl _,
    fun _ => rfl⟩

theorem trans (h : p.Ages p') (h' : p'.Ages p'') : p.Ages p'' := by
  refine ⟨h'.pid.trans h.pid, h'.quantum.trans h.quantum, h'.release.trans h.release,
    h'.lower.trans h.lower, h'.upper.trans h.upper, fun t started => ?_, fun t ended => ?_,
    Int.le_trans h.pc h'.pc, Int.le_trans h.bound h'.bound, Int.le_trans h.executed h'.executed,
    fun dead => ?_⟩
  · exact h'.start t (h.start t started)
  · exact h'.stop t (h.stop t ended)
  · have same := h.final dead
    subst same
    exact h'.final dead

theorem enter (alive : p.state ≠ .terminated) (st : Station) : p.Ages (p.enter st) :=
  ⟨rfl, rfl, rfl, rfl, rfl, fun _ => id, fun _ => id, Int.le_refl _, Int.le_refl _, Int.le_refl _,
    fun dead => absurd dead alive⟩

theorem bind (alive : p.state ≠ .terminated) : p.Ages { p with bound := p.bound + 1 } :=
  ⟨rfl, rfl, rfl, rfl, rfl, fun _ => id, fun _ => id, Int.le_refl _, Int.le_add_one (Int.le_refl _),
    Int.le_refl _, fun dead => absurd dead alive⟩

theorem counted (alive : p.state ≠ .terminated) : p.Ages p.counted :=
  ⟨rfl, rfl, rfl, rfl, rfl, fun _ => id, fun _ => id, Int.le_refl _, Int.le_refl _,
    Int.le_add_one (Int.le_refl _), fun dead => absurd dead alive⟩

theorem advance (alive : p.state ≠ .terminated) : p.Ages p.advance := by
  unfold ControlBlock.advance
  split
  · exact ⟨rfl, rfl, rfl, rfl, rfl, fun _ => id, fun _ => id, Int.le_add_one (Int.le_refl _),
      Int.le_refl _, Int.le_refl _, fun dead => absurd dead alive⟩
  · exact refl p

/-- A process keeps the time at which it first took the processor. -/
theorem started (alive : p.state ≠ .terminated) (now : Int) : p.Ages (p.started now) := by
  refine ⟨rfl, rfl, rfl, rfl, rfl, fun t begun => ?_, fun _ => id, Int.le_refl _, Int.le_refl _,
    Int.le_refl _, fun dead => absurd dead alive⟩
  show some (p.startTime.getD now) = some t
  rw [begun, Option.getD_some]

/-- A process that has not ended yet may end. -/
theorem ended (alive : p.state ≠ .terminated) (unfinished : p.endTime = none) (now : Int) :
    p.Ages (p.ended now) := by
  refine ⟨rfl, rfl, rfl, rfl, rfl, fun _ => id, fun t before => ?_, Int.le_refl _, Int.le_refl _,
    Int.le_refl _, fun dead => absurd dead alive⟩
  rw [unfinished] at before
  cases before

end ControlBlock.Ages

/-- The scheduler at a later time: all processes are there, and those that ended stay in their
order. -/
structure Scheduler.Ages (s s' : Scheduler) : Prop where
  process : ∀ key p, s.process? key = some p → ∃ p', s'.process? key = some p' ∧ p.Ages p'
  terminated : s.terminated <+: s'.terminated

namespace Scheduler.Ages

variable {s s' s'' : Scheduler} {key : Int} {p : ControlBlock} {a b : Station}

theorem of_same (process? : ∀ k, s'.process? k = s.process? k)
    (terminated : s'.terminated = s.terminated) : s.Ages s' :=
  ⟨fun k p known => ⟨p, (process? k).trans known, .refl p⟩, terminated ▸ List.prefix_rfl⟩

theorem trans (h : s.Ages s') (h' : s'.Ages s'') : s.Ages s'' := by
  refine ⟨fun k p known => ?_, h.terminated.trans h'.terminated⟩
  obtain ⟨p', known', ages⟩ := h.process k p known
  obtain ⟨p'', known'', ages'⟩ := h'.process k p' known'
  exact ⟨p'', known'', ages.trans ages'⟩

theorem amend {f : ControlBlock → ControlBlock} (known : s.process? key = some p)
    (ages : p.Ages (f p)) : s.Ages (s.amend key f) := by
  refine ⟨fun k q hq => ?_, List.prefix_rfl⟩
  by_cases same : k = key
  · subst same
    cases known.symm.trans hq
    exact ⟨f p, process?_amend_self known f, ages⟩
  · exact ⟨q, (s.process?_amend_of_ne same f).trans hq, .refl q⟩

/-- A process that has not ended may go to any other station. -/
theorem transfer (known : s.process? key = some p) (stands : p.station? = some a)
    (alive : a ≠ .terminated) (moved : Transfer key a b s s') : s.Ages s' := by
  have living : p.state ≠ .terminated := by
    rw [ControlBlock.state_of_station? stands]
    cases a with
    | terminated => exact absurd rfl alive
    | _ => exact nofun
  refine ⟨fun k q hq => ?_, ?_⟩
  · by_cases same : k = key
    · subst same
      cases known.symm.trans hq
      exact ⟨p.enter b, moved.process?_self known, .enter living b⟩
    · exact ⟨q, (moved.process?_of_ne same).trans hq, .refl q⟩
  · show s.queue .terminated <+: s'.queue .terminated
    rw [moved.queue]
    by_cases last : Station.terminated = b
    · rw [if_pos last, last]
      exact List.prefix_append _ _
    · simp only [if_neg last, if_neg (Ne.symm alive), List.prefix_rfl]

theorem arrival (arrival : Arrival p s s') : s.Ages s' := by
  have terminated : s'.terminated = s.terminated :=
    (arrival.queue .terminated).trans (if_neg (by decide))
  exact ⟨fun _ q hq => ⟨q, arrival.process?_of_some hq, .refl q⟩, terminated ▸ List.prefix_rfl⟩

end Scheduler.Ages

/-! ### Memory -/

/-- The lines of the programs stay in memory, and so do the names of the variables. -/
structure Memory.Persists (m m' : Memory) : Prop where
  line : ∀ a s, m.slot? a = some s → s.name = Slot.instructionName → m'.slot? a = some s
  name : ∀ a s, m.slot? a = some s → s.IsVariable → ∃ value, m'.slot? a = some ⟨s.name, value⟩

namespace Memory.Persists

variable {m m' m'' : Memory}

theorem of_same (same : ∀ a s, m.slot? a = some s → s.name ≠ "" → m'.slot? a = some s) :
    m.Persists m' := by
  refine ⟨fun a s at_a named => ?_, fun a s at_a named => ⟨s.value, same a s at_a named.1⟩⟩
  refine same a s at_a ?_
  rw [named]
  decide

theorem refl (m : Memory) : m.Persists m := of_same fun _ _ at_a _ => at_a

theorem trans (h : m.Persists m') (h' : m'.Persists m'') : m.Persists m'' := by
  refine ⟨fun a s at_a named => h'.line a s (h.line a s at_a named) named, fun a s at_a named => ?_⟩
  obtain ⟨value, at_a'⟩ := h.name a s at_a named
  exact h'.name a ⟨s.name, value⟩ at_a' named

/-- A slot that holds no line may be written if a variable in it keeps its name. -/
theorem write {a : Int} {s : Slot} {name value : String} (at_a : m.slot? a = some s)
    (no_line : s.name ≠ Slot.instructionName) (keeps : s.IsVariable → name = s.name)
    (written : m.write? a ⟨name, value⟩ = .ok m') : m.Persists m' := by
  have read := slot?_write written
  constructor
  · intro b t at_b named
    have other : b ≠ a := by
      rintro rfl
      cases at_a.symm.trans at_b
      exact no_line named
    rw [read, if_neg other, at_b]
  · intro b t at_b named
    by_cases same : b = a
    · subst same
      cases at_a.symm.trans at_b
      exact ⟨value, by rw [read, if_pos rfl, keeps named]⟩
    · exact ⟨t.value, by rw [read, if_neg same, at_b]⟩

end Memory.Persists

/-! ### Metrics -/

/-- Records and slices are added at the end, and counters do not go back. -/
structure Metrics.Grows (x x' : Metrics) : Prop where
  completed : x.completed <+: x'.completed
  slices : x.slices <+: x'.slices
  active : x.activeTicks ≤ x'.activeTicks
  total : x.totalTicks ≤ x'.totalTicks
  switches : x.contextSwitches ≤ x'.contextSwitches

namespace Metrics.Grows

variable {x x' x'' : Metrics}

theorem refl (x : Metrics) : x.Grows x :=
  ⟨List.prefix_rfl, List.prefix_rfl, Int.le_refl _, Int.le_refl _, Int.le_refl _⟩

theorem trans (h : x.Grows x') (h' : x'.Grows x'') : x.Grows x'' :=
  ⟨h.completed.trans h'.completed, h.slices.trans h'.slices, Int.le_trans h.active h'.active,
    Int.le_trans h.total h'.total, Int.le_trans h.switches h'.switches⟩

theorem countIdle (x : Metrics) : x.Grows x.countIdle :=
  ⟨List.prefix_rfl, List.prefix_rfl, Int.le_refl _, Int.le_add_one (Int.le_refl _), Int.le_refl _⟩

theorem countActive (x : Metrics) : x.Grows x.countActive :=
  ⟨List.prefix_rfl, List.prefix_rfl, Int.le_add_one (Int.le_refl _), Int.le_add_one (Int.le_refl _),
    Int.le_refl _⟩

theorem countSwitch (x : Metrics) :
    x.Grows { x with contextSwitches := x.contextSwitches + 1 } :=
  ⟨List.prefix_rfl, List.prefix_rfl, Int.le_refl _, Int.le_refl _, Int.le_add_one (Int.le_refl _)⟩

theorem logSlice (x : Metrics) (s : Slice) : x.Grows (x.logSlice s) := by
  unfold Metrics.logSlice
  split
  · exact ⟨List.prefix_rfl, List.prefix_append _ _, Int.le_refl _, Int.le_refl _, Int.le_refl _⟩
  · exact refl x

theorem logRecord (x : Metrics) (r : Record) : x.Grows (x.logRecord r) :=
  ⟨List.prefix_append _ _, List.prefix_rfl, Int.le_refl _, Int.le_refl _, Int.le_refl _⟩

end Metrics.Grows

/-! ### One change -/

namespace Effect

variable {ps : List Program} {m : Machine} {memory : Memory} {s : Scheduler} {key : Int}
  {p : ControlBlock} {i : Instruction}

theorem ages (h : Sound ps m) (facing : Facing m key p i)
    (effect : Effect m.memory m.scheduler key p i memory s) : m.scheduler.Ages s := by
  cases effect with
  | acquire | release | store | nothing => exact .of_same (fun _ => rfl) rfl
  | bind =>
    have alive : p.state ≠ .terminated := by rw [facing.runs]; decide
    exact .amend facing.known (.bind alive)
  | @wake r woken rest s front moved =>
    have waits : woken ∈ m.scheduler.queue (.blocked r) := by rw [front]; exact List.mem_cons_self
    obtain ⟨q, known, stands⟩ := h.orderly.process?_of_mem waits
    have permitted : m.scheduler.Ages (m.scheduler.withPermits r 1) :=
      .of_same (fun _ => rfl) rfl
    exact permitted.trans (.transfer known stands nofun moved)

/-- A variable is bound in a free slot, and a variable that is set keeps its name. -/
theorem persists (h : Sound ps m) (facing : Facing m key p i)
    (effect : Effect m.memory m.scheduler key p i memory s) : m.memory.Persists memory := by
  cases effect with
  | acquire | release | wake | nothing => exact .refl _
  | bind allowed room written =>
    obtain ⟨P, -, placed⟩ := h.layout.lookup facing.known
    have free := placed.holds.slot?_nextSlot room
    exact .write free (by decide) (fun named => absurd named Slot.not_isVariable_free) written
  | @store path name value a memory allowed found written =>
    obtain ⟨t, at_a, rfl⟩ := Memory.slot?_of_addressOf found
    refine .write at_a (fun line => ?_) (fun _ => rfl) written
    rw [line] at allowed
    cases allowed

end Effect

/-- The machine at a later time. What was done is not undone. -/
structure Continues (m m' : Machine) : Prop where
  scheduler : m.scheduler.Ages m'.scheduler
  memory : m.memory.Persists m'.memory
  metrics : m.metrics.Grows m'.metrics
  now : m.now ≤ m'.now

namespace Continues

variable {ps : List Program} {m m' m'' : Machine} {key start : Int} {p : ControlBlock}
  {i : Instruction} {r : Resource}

theorem of_inside (same : m'.inside = m.inside) : Continues m m' := by
  refine ⟨?_, ?_, ?_, Int.le_of_eq (Machine.now_of_inside same).symm⟩
  · rw [Machine.scheduler_of_inside same]
    exact .of_same (fun _ => rfl) rfl
  · rw [Machine.memory_of_inside same]
    exact .refl _
  · rw [Machine.metrics_of_inside same]
    exact .refl _

theorem refl (m : Machine) : Continues m m := of_inside rfl

/-- How often a process is queued for a resource does not matter. -/
theorem of_mirrors {s : Machine} (mirrors : Mirrors s m) : Continues s m ∧ Continues m s := by
  have terminated := mirrors.queue .terminated fun _ => Station.noConfusion
  have now := mirrors.now
  refine ⟨⟨.of_same mirrors.process? terminated, ?_, ?_, Int.le_of_eq now.symm⟩,
    .of_same (fun k => (mirrors.process? k).symm) terminated.symm, ?_, ?_, Int.le_of_eq now⟩
  · exact mirrors.memory ▸ .refl _
  · exact mirrors.metrics ▸ .refl _
  · exact mirrors.memory ▸ .refl _
  · exact mirrors.metrics ▸ .refl _

theorem trans (h : Continues m m') (h' : Continues m' m'') : Continues m m'' :=
  ⟨h.scheduler.trans h'.scheduler, h.memory.trans h'.memory, h.metrics.trans h'.metrics,
    Int.le_trans h.now h'.now⟩

theorem of_scheduler {s : Scheduler} (ages : m.scheduler.Ages s) :
    Continues m { m with scheduler := s } :=
  ⟨ages, .refl _, .refl _, Int.le_refl _⟩

theorem dispatch (h : Sound ps m) (d : Dispatch key p m m') : Continues m m' := by
  obtain ⟨known, stands⟩ := d.stands h
  obtain @⟨rest, s, idle, front, -, moved⟩ := d
  have entered : m.scheduler.Ages s := .transfer known stands (by decide) moved
  have started : s.Ages (s.amend key (ControlBlock.started m.now)) :=
    .amend (moved.process?_self known) (.started (show ProcessState.running ≠ _ by decide) m.now)
  exact ⟨entered.trans started, .refl _, .countSwitch _, Int.le_refl _⟩

/-- An instruction is counted with its tick. -/
theorem charge (known : m.scheduler.process? key = some p) (alive : p.state ≠ .terminated) :
    Continues m (m.charge key) :=
  ⟨.amend known (.counted alive), .refl _, .countActive _, Int.le_add_one (Int.le_refl _)⟩

/-- An instruction that does not block its process is executed and counted. -/
theorem effect (h : Sound ps m) (facing : Facing m key p i) {memory : Memory} {s : Scheduler}
    (effect : Effect m.memory m.scheduler key p i memory s) :
    Continues m (({ m with memory, scheduler := s } : Machine).charge key) := by
  obtain ⟨n, known⟩ := h.process?_of_effect facing effect
  have alive : p.state ≠ .terminated := by rw [facing.runs]; decide
  have done : Continues m { m with memory, scheduler := s } :=
    ⟨effect.ages h facing, effect.persists h facing, .refl _, Int.le_refl _⟩
  exact done.trans (.charge known alive)

theorem complete (h : Sound ps m) (c : Completion key p i m m') : Continues m m' := by
  obtain @⟨memory, s, facing, done⟩ := c
  obtain ⟨n, known⟩ := h.process?_of_effect facing done
  have alive : p.state ≠ .terminated := by rw [facing.runs]; decide
  have counted := Scheduler.process?_amend_self known ControlBlock.counted
  exact (effect h facing done).trans (.of_scheduler (.amend counted (.advance alive)))

theorem block (h : Sound ps m) (b : Blocking key p r m m') : Continues m m' := by
  obtain @⟨s, facing, used_up, moved⟩ := b
  have stands := h.orderly.station?_of_running facing.known facing.runs
  have blocked : Continues m { m with scheduler := s } :=
    .of_scheduler (.transfer facing.known stands (by decide) moved)
  have asleep : (p.enter (.blocked r)).state ≠ .terminated :=
    show ProcessState.blocked ≠ .terminated by decide
  exact blocked.trans (.charge (moved.process?_self facing.known) asleep)

theorem depart (h : Sound ps m) (T : Timely m) (d : Departure key start m m') :
    Continues m m' := by
  have sliced := Metrics.Grows.logSlice m.metrics ⟨key, start, m.now⟩
  cases d with
  | yield => exact ⟨.of_same (fun _ => rfl) rfl, .refl _, sliced, Int.le_refl _⟩
  | preempt facing moved =>
    have stands := h.orderly.station?_of_running facing.known facing.runs
    exact ⟨.transfer facing.known stands (by decide) moved, .refl _, sliced, Int.le_refl _⟩
  | @terminate p s record current known runs at_end moved recorded =>
    have alive : p.state ≠ .terminated := by rw [runs]; decide
    have stands := h.orderly.station?_of_running known runs
    have unfinished := (T key p known).unfinished (h.orderly.not_mem_queue known stands (by decide))
    have ended : m.scheduler.Ages (m.scheduler.amend key (ControlBlock.ended m.now)) :=
      .amend known (.ended alive unfinished m.now)
    have entered : (m.scheduler.amend key (ControlBlock.ended m.now)).Ages s :=
      .transfer (Scheduler.process?_amend_self known _) stands (by decide) moved
    exact ⟨ended.trans entered, .refl _, sliced.trans (.logRecord _ record), Int.le_refl _⟩

theorem of_move (h : Sound ps m) (T : Timely m) (move : Move m m') : Continues m m' := by
  cases move with
  | idle =>
    exact ⟨.of_same (fun _ => rfl) rfl, .refl _, .countIdle _, Int.le_add_one (Int.le_refl _)⟩
  | stall stall =>
    obtain ⟨facing, done, -⟩ := stall
    exact effect h facing done
  | linger stuck =>
    have blocked := ControlBlock.state_of_station? stuck.stands
    exact .charge stuck.known (by rw [blocked]; exact nofun)
  | work work =>
    cases work with
    | outside same => exact of_inside same
    | promote known stands due moved =>
      exact of_scheduler (.transfer known stands (by decide) moved)
    | dispatch d => exact dispatch h d
    | complete c => exact complete h c
    | block b => exact block h b
    | depart d => exact depart h T d

theorem of_moves (h : Sound ps m) (T : Timely m) (run : Moves m m') : Continues m m' := by
  refine (run.invariant (Q := fun m' => Timely m' ∧ Continues m m') ?_ h ⟨T, refl m⟩).2
  intro m₁ m₂ h₁ ⟨T₁, so_far⟩ move
  exact ⟨T₁.move h₁ move, so_far.trans (.of_move h₁ T₁ move)⟩

/-- A program is loaded to slots that were never used. -/
theorem of_load (h : Layout ps m) {P : Program} (load : Load P m m') : Continues m m' := by
  have next := h.next
  obtain @⟨memory, last, s, released, loaded, arrival⟩ := load
  have size := (Memory.load?_eq_ok loaded).2.2.1
  refine ⟨.arrival arrival, .of_same fun a t at_a named => ?_, .refl _, Int.le_refl _⟩
  rw [Memory.slot?_load loaded]
  by_cases within : m.nextAddress ≤ a ∧ a ≤ last
  · have unused := h.unused a (by omega) (by omega)
    cases at_a.symm.trans unused
    exact absurd rfl named
  · rw [if_neg within, at_a]

end Continues

/-! ### Requests -/

/-- The machines to which a machine is led by further requests, also by such that end in a fault.
Between the requests the files and the input may change. -/
inductive Later (m : Machine) : Machine → Prop where
  | now : Later m m
  | request {m' : Machine} (before : Later m m') (r : Request) : Later m (after r.perform m')
  | outside {m' : Machine} (before : Later m m') (storage : Storage) (inputs : List String) :
    Later m { m' with storage, inputs }

namespace Reachable

variable {ps : List Program} {m m' : Machine}

theorem continues_of_proper {α : Type} {op : Operation α} (h : Reachable ps m) (proper : Proper op) :
    Continues m (after op m) := by
  obtain ⟨s, kept, times, -⟩ := h.timely
  obtain ⟨s', kept', moves⟩ := proper ps s m kept
  have meanwhile := (Continues.of_mirrors kept.mirrors).2.trans (.of_moves kept.sound times moves)
  exact meanwhile.trans (Continues.of_mirrors kept'.mirrors).1

/-- Handing over the results changes nothing inside the machine. -/
theorem inside_shutdown (chartFile resultsFile : Option String) (m : Machine) :
    (after (Request.perform (.shutdown chartFile resultsFile)) m).inside = m.inside := by
  have same := after_bind_pure (Machine.shutdown chartFile resultsFile)
    (fun _ => Reply.handedOver) m
  rw [Request.perform, same]
  exact Machine.quiet_shutdown chartFile resultsFile m

theorem handed_over (later : Later m m') : ∃ m'', Later m m'' ∧ m''.inside = m'.inside :=
  ⟨_, later.request (.shutdown none none), inside_shutdown none none m'⟩

theorem continues_request (h : Reachable ps m) (r : Request) : Continues m (after r.perform m) := by
  cases r with
  | load lines release =>
    rw [Request.perform, after_bind_pure]
    rcases m.after_createProcess_cases lines release with ⟨time, m₁, load, same⟩ | unchanged
    · exact (Continues.of_load h.layout load).trans (.of_inside same)
    · rw [unchanged]
      exact .refl m
  | step => exact h.continues_of_proper (.bind .step fun _ => .of_quiet (quiet_pure _))
  | run limit => exact h.continues_of_proper (.bind (.run limit) fun _ => .of_quiet (quiet_pure _))
  | shutdown chartFile resultsFile => exact .of_inside (inside_shutdown chartFile resultsFile m)

/-- Wherever further requests lead from a machine, what was done before is not undone. -/
theorem continues_later (h : Reachable ps m) (later : Later m m') : Continues m m' := by
  have kept : (∃ ps', Reachable ps' m') ∧ Continues m m' := by
    induction later with
    | now => exact ⟨⟨ps, h⟩, .refl m⟩
    | request before r ih =>
      obtain ⟨⟨ps', reachable⟩, so_far⟩ := ih
      exact ⟨r.reachable reachable, so_far.trans (reachable.continues_request r)⟩
    | outside before storage inputs ih =>
      obtain ⟨⟨ps', reachable⟩, so_far⟩ := ih
      exact ⟨⟨ps', reachable.outside storage inputs⟩, so_far.trans (.of_inside rfl)⟩
  exact kept.2

/-- A process ends and keeps its variable. Then one program is refused and one is loaded, the files
change, and all is run and handed over. -/
theorem continues_later_run : ∃ m m', Reachable [⟨["assign x 1"], 0⟩] m ∧ Later m m' ∧
    m.scheduler.terminated = [1] ∧ m'.scheduler.terminated = [1, 2] ∧
    m.memory.slot? 1 = some ⟨"x", "1"⟩ ∧ m'.memory.slot? 1 = some ⟨"x", "new"⟩ ∧
    Continues m m' := by
  have made := Reachable.fresh 2 9 (by decide) (by decide)
  have ended := (made.after_createProcess ["assign x 1"] 0 (by decide) (by decide)).step
  have later := Later.now (m := after Machine.step
    (after (Machine.createProcess ["assign x 1"] (.whole 0)) (Machine.fresh 2 9)))
  have changed := ((later.request (.load ["print x"] (.whole (-1)))).request
    (.load ["readFile f x"] (.whole 3))).outside
    (({} : Storage).install "f" (.file [110, 101, 119])) []
  have done := changed.request (.run none)
  obtain ⟨m', last, same⟩ := handed_over done
  refine ⟨_, _, ended, last, by decide +kernel, ?_, by decide +kernel, ?_,
    ended.continues_later last⟩
  · rw [Machine.scheduler_of_inside same]
    decide +kernel
  · rw [Machine.memory_of_inside same]
    decide +kernel

end Reachable

end RoundRobin
