import RoundRobin.Proofs.Load
import RoundRobin.Proofs.Step

/-!
# A process that waits in vain

If the pause after an instruction is refused, then the process stays on the processor in front of the
instruction, and the next step executes it again. So a process that was blocked is blocked once more by
every step, and each time its number is put into the queue of the resource (`Scheduler.crowd`). Nothing
else distinguishes the machine from one on which the process is only counted another instruction (`Kept`),
and that one is sound.
-/

namespace RoundRobin

open Operation

namespace Scheduler

/-- The scheduler with a number some more times at the end of the queue of a resource. -/
def crowd (s : Scheduler) (r : Resource) (key : Int) (n : Nat) : Scheduler :=
  { s with
    semaphores := s.semaphores.set r
      { s.semaphores.get r with blocked := s.blocked r ++ List.replicate n key } }

variable {s s' : Scheduler} {r : Resource} {key : Int} {n : Nat} {p : ControlBlock}

theorem crowd_zero (s : Scheduler) (r : Resource) (key : Int) : s.crowd r key 0 = s := by
  unfold crowd blocked
  rw [List.replicate_zero, List.append_nil]
  cases r <;> rfl

theorem queue_crowd (s : Scheduler) (r : Resource) (key : Int) (n : Nat) (st : Station) :
    (s.crowd r key n).queue st
      = if st = .blocked r then s.queue (.blocked r) ++ List.replicate n key else s.queue st := by
  cases st with
  | blocked other =>
    simp only [queue, blocked, crowd, Semaphores.get_set, Station.blocked.injEq]
    split <;> rfl
  | _ => rfl

theorem permits_crowd (s : Scheduler) (r other : Resource) (key : Int) (n : Nat) :
    (s.crowd r key n).permits other = s.permits other := by
  simp only [permits, crowd, Semaphores.get_set]
  split
  · rename_i same
    rw [same]
  · rfl

theorem crowd_crowd (s : Scheduler) (r : Resource) (key : Int) (n k : Nat) :
    (s.crowd r key n).crowd r key k = s.crowd r key (n + k) := by
  have longer : (s.crowd r key n).blocked r = s.blocked r ++ List.replicate n key :=
    (s.queue_crowd r key n (.blocked r)).trans (if_pos rfl)
  unfold crowd at longer ⊢
  rw [longer, List.append_assoc, ← List.replicate_add]
  cases r <;> rfl

/-- A process that waits already and waits once more is in the queue once more. -/
theorem semWait_crowd (h : s.Orderly) (known : s.process? key = some p)
    (stands : p.station? = some (.blocked r)) (used_up : ¬0 < s.permits r) (n : Nat) :
    (s.crowd r key n).semWait r key = (false, s.crowd r key (n + 1)) := by
  have pid := h.pidOf known
  have off : key ∉ s.queue .running := h.not_mem_queue known stands nofun
  have enters : ({ p with state := .blocked, blockedOn := .resource r } : ControlBlock) = p := by
    obtain ⟨state, waits⟩ := (ControlBlock.station?_eq_some_iff p _).1 stands
    rw [← show p.state = .blocked from state, ← show p.blockedOn = .resource r from waits]
  have fixed : (s.crowd r key n).amend key
      (fun p => { p with state := .blocked, blockedOn := .resource r }) = s.crowd r key n :=
    amend_of_fixed (show (s.crowd r key n).process? key = some p from known) enters
  have stays : (s.crowd r key n).leaveProcessor key = s.crowd r key n := by
    have number : (s.crowd r key n).pidOf key = key := pid
    have removed : ((s.crowd r key n).running.remove key).2 = s.running := by
      unfold Queue.remove
      exact List.erase_of_not_mem off
    unfold leaveProcessor
    rw [number, removed]
    rfl
  have unavailable : ((s.crowd r key n).semaphores.get r).isAvailable = false := by
    have none_left : ¬0 < (s.crowd r key n).permits r := by rwa [permits_crowd]
    exact decide_eq_false none_left
  unfold semWait
  dsimp only
  rw [unavailable, if_neg (by decide), fixed, stays, ← crowd_crowd,
    show (s.crowd r key n).pidOf key = key from pid]
  rfl

/-- A promotion does not look at who waits for a resource. -/
theorem promote_crowd (h : s.Orderly) (now : Int) (r : Resource) (key : Int) (n : Nat) :
    (s.crowd r key n).promote now = (.ok ((s.pending.filter (s.due now)).map s.pidOf),
      (s.admitted now).crowd r key n) :=
  promote_eq (s := s.crowd r key n) h.isSome_of_mem_pending

/-- A scheduler is known by its processes, its queues and its permits. -/
theorem eq_of_queues (processes : s'.processes = s.processes) (queue : ∀ st, s'.queue st = s.queue st)
    (permits : ∀ r, s'.permits r = s.permits r) : s' = s := by
  have guard : ∀ r, s'.semaphores.get r = s.semaphores.get r := by
    intro r
    have count : (s'.semaphores.get r).count = (s.semaphores.get r).count := permits r
    have blocked : (s'.semaphores.get r).blocked = (s.semaphores.get r).blocked := queue (.blocked r)
    exact congrArg₂ Semaphore.mk count blocked
  have file : s'.semaphores.file = s.semaphores.file := guard .file
  have input : s'.semaphores.userInput = s.semaphores.userInput := guard .userInput
  have output : s'.semaphores.userOutput = s.semaphores.userOutput := guard .userOutput
  have pending : s'.pending = s.pending := queue .pending
  have ready : s'.ready = s.ready := queue .ready
  have running : s'.running = s.running := queue .running
  have terminated : s'.terminated = s.terminated := queue .terminated
  obtain ⟨_, _, _, _, _, _, _, _⟩ := s
  obtain ⟨_, _, _, _, _, _, _, _⟩ := s'
  subst processes file input output pending ready running terminated
  rfl

end Scheduler

namespace Arrival

variable {p : ControlBlock} {s s' s₁ : Scheduler}

/-- A process arrives in one way only. -/
theorem unique (a : Arrival p s s') (a₁ : Arrival p s s₁) : s' = s₁ := by
  refine Scheduler.eq_of_queues (a.processes.trans a₁.processes.symm) (fun st => ?_) fun r => ?_
  · rw [a.queue, a₁.queue]
  · rw [a.permits, a₁.permits]

/-- A process that arrives does not look at who waits for a resource. -/
theorem crowd (a : Arrival p s s') (r : Resource) (key : Int) (n : Nat) :
    Arrival p (s.crowd r key n) (s'.crowd r key n) := by
  refine ⟨a.process?, fun st => ?_, fun other => ?_, a.length⟩
  · rw [s'.queue_crowd, a.queue, a.queue, s.queue_crowd, s.queue_crowd]
    by_cases waits : st = .blocked r
    · subst waits
      rfl
    · rw [if_neg waits]
      split
      · rfl
      · rfl
  · rw [s'.permits_crowd, s.permits_crowd, a.permits]

end Arrival

namespace Machine

/-- The machine with a number some more times at the end of the queue of a resource. -/
def crowd (m : Machine) (r : Resource) (key : Int) (n : Nat) : Machine :=
  { m with scheduler := m.scheduler.crowd r key n }

theorem crowd_zero (m : Machine) (r : Resource) (key : Int) : m.crowd r key 0 = m := by
  unfold crowd
  rw [m.scheduler.crowd_zero]

theorem crowd_crowd (m : Machine) (r : Resource) (key : Int) (n k : Nat) :
    (m.crowd r key n).crowd r key k = m.crowd r key (n + k) :=
  congrArg (fun scheduler => { m with scheduler }) (m.scheduler.crowd_crowd r key n k)

end Machine

/-! ### One more wait -/

section

variable {ps : List Program} {s m : Machine} {key : Int} {p : ControlBlock} {r : Resource} {n : Nat}

/-- However many instructions a process may execute, it waits once more and its pause is refused. -/
theorem Stuck.waits_again (stuck : Stuck s key p r) (h : Sound ps s)
    (same : m.inside = (s.crowd r key n).inside) : ∃ fault es, fault.isPause ∧
      ∀ k, Machine.runInstructions key (k + 1) m
        = .error fault (((m.crowd r key 1).charge key).recordAll es) := by
  have known : m.scheduler.process? key = some p := by
    rw [Machine.scheduler_of_inside same]
    exact stuck.known
  have memory : m.memory = (s.crowd r key n).memory := Machine.memory_of_inside same
  obtain ⟨⟨slot, i⟩, at_pc, rfl⟩ := Option.map_eq_some_iff.1 stuck.instruction
  rw [show s.memory = m.memory from memory.symm] at at_pc
  have run := Machine.runInstructions_next known at_pc
  have shown := m.announced_eq p slot.value
  generalize (if m.verbose then _ else _ : List Event) = told at shown
  have scheduler : m.scheduler = s.scheduler.crowd r key n := Machine.scheduler_of_inside same
  have waits : m.scheduler.semWait r key = (false, m.scheduler.crowd r key 1) := by
    rw [scheduler, Scheduler.semWait_crowd h.orderly stuck.known stuck.stands stuck.used_up,
      Scheduler.crowd_crowd]
  have executed : Machine.execute key (.semWait r) (m.recordAll told) = _ :=
    Machine.semWait_of_refused (m := m.recordAll told) waits
  have refused : ¬m.Rests := (Machine.rests_of_inside same).not.2 stuck.refused
  obtain ⟨fault, pauses, counted⟩ := Machine.countInstruction_of_refused
    (m := ({ m.recordAll told with scheduler := m.scheduler.crowd r key 1 } : Machine).record (.notice
      (.blocked ((m.scheduler.crowd r key 1).pidOf key) r))) refused key
  refine ⟨fault, told ++ [.notice (.blocked ((m.scheduler.crowd r key 1).pidOf key) r)], pauses,
    fun k => ?_⟩
  have log : (m.log ++ told).push (.notice (.blocked ((m.scheduler.crowd r key 1).pidOf key) r))
      = m.log ++ (told ++ [.notice (.blocked ((m.scheduler.crowd r key 1).pidOf key) r)]) :=
    Array.toList_inj.1 (by simp)
  rw [run, bind_apply, shown, Machine.perform, bind_apply, executed]
  dsimp only
  rw [bind_apply, counted]
  exact congrArg (fun log => EStateM.Result.error fault
    ({ (m.crowd r key 1).charge key with log } : Machine)) log

/-- A promotion leaves a process that waits in vain where it is. -/
theorem Stuck.promotes (stuck : Stuck s key p r) (h : Sound ps s)
    (same : m.inside = (s.crowd r key n).inside) : ∃ s₁ m₁, Promotion s s₁ ∧ Stuck s₁ key p r ∧
      Machine.promote m = .ok () m₁ ∧ m₁.inside = (s₁.crowd r key n).inside := by
  obtain ⟨s₁, promoted, promotion⟩ := h.promote_works
  have scheduler : m.scheduler = s.scheduler.crowd r key n := Machine.scheduler_of_inside same
  have now : m.now = s.now := (congrArg Machine.now same :)
  have own : s.scheduler.promote s.now = _ :=
    Scheduler.promote_eq h.orderly.isSome_of_mem_pending
  have moved := Scheduler.promote_crowd h.orderly s.now r key n
  rw [← scheduler, ← now] at moved
  have promoted₁ := Machine.promote_apply moved
  generalize told : Machine.recordAll _ _ = m₁ at promoted₁
  have inside : m₁.inside
      = ({ m with scheduler := (s.scheduler.admitted m.now).crowd r key n } : Machine).inside :=
    told ▸ rfl
  have result₁ : s₁.inside = ({ s with scheduler := s.scheduler.admitted s.now } : Machine).inside := by
    cases promoted.symm.trans (Machine.promote_apply own)
    rfl
  have admitted : s₁.scheduler = s.scheduler.admitted s.now := Machine.scheduler_of_inside result₁
  have off : key ∉ s.scheduler.queue .pending :=
    h.orderly.not_mem_queue stuck.known stuck.stands (Station.noConfusion)
  refine ⟨s₁, m₁, promotion, ⟨promotion.current.trans stuck.current, ?_, stuck.stands, ?_, ?_, ?_⟩,
    promoted₁, ?_⟩
  · rw [admitted, Scheduler.process?_admitted, stuck.known, Option.map_some, if_neg]
    exact fun waits => off (List.mem_of_mem_filter waits)
  · rw [Machine.memory_of_inside result₁]
    exact stuck.instruction
  · rw [admitted]
    exact stuck.used_up
  · rw [Machine.rests_of_inside result₁]
    exact stuck.refused
  · have shadow := congrArg (fun x : Machine => (x.crowd r key n).inside) result₁
    have crowded := congrArg
      (fun x : Machine => { x with scheduler := (s.scheduler.admitted s.now).crowd r key n }) same
    rw [inside, now]
    exact crowded.trans shadow.symm

/-- A step of a machine with a process that waits in vain executes the wait once more, and its pause is
refused again. -/
theorem Stuck.step (stuck : Stuck s key p r) (h : Sound ps s)
    (same : m.inside = (s.crowd r key n).inside) : ∃ s₁ fault m', Promotion s s₁ ∧ Stuck s₁ key p r ∧
      fault.isPause ∧ Machine.step m = .error fault m' ∧
      (∀ k, Machine.beginStep (k + 1) m = .error fault m') ∧
      m'.inside = ((s₁.charge key).crowd r key (n + 1)).inside := by
  obtain ⟨s₁, m₁, promotion, stuck₁, promoted, same₁⟩ := stuck.promotes h same
  have h₁ := h.works promotion.works
  obtain ⟨fault, es, pauses, run⟩ := stuck₁.waits_again h₁ same₁
  have inside : (((m₁.crowd r key 1).charge key).recordAll es).inside
      = ((s₁.charge key).crowd r key (n + 1)).inside := by
    calc (((m₁.crowd r key 1).charge key).recordAll es).inside
        = ((m₁.inside.crowd r key 1).charge key).inside := rfl
      _ = (((s₁.crowd r key n).inside.crowd r key 1).charge key).inside := by rw [same₁]
      _ = (((s₁.crowd r key n).crowd r key 1).charge key).inside := rfl
      _ = ((s₁.charge key).crowd r key (n + 1)).inside := by
        rw [Machine.crowd_crowd]
        rfl
  have current : m₁.current = some key := (Machine.current_of_inside same₁).trans stuck₁.current
  have known : m₁.scheduler.process? key = some p := by
    rw [Machine.scheduler_of_inside same₁]
    exact stuck₁.known
  have occupied := Machine.occupy_of_busy current
  obtain ⟨P, -, placed⟩ := h₁.layout.lookup stuck₁.known
  have positive : 0 < p.quantum := placed.quantum ▸ h₁.layout.quantum_pos
  have burst : Machine.burst m₁ = .error fault (((m₁.crowd r key 1).charge key).recordAll es) := by
    unfold Machine.burst
    rw [bind_apply, get_apply]
    dsimp only
    rw [current]
    dsimp only
    rw [bind_apply, process_apply known]
    dsimp only
    rw [bind_apply, get_apply]
    dsimp only
    rw [bind_apply, show p.quantum.toNat = p.quantum.toNat - 1 + 1 by omega, run]
  refine ⟨s₁, fault, _, promotion, stuck₁, pauses, ?_, fun k => ?_, inside⟩
  · rw [Machine.step_eq promoted occupied, Machine.proceed_of_busy current, bind_apply, burst]
  · rw [Machine.beginStep_of_busy promoted occupied current, run]

end

/-! ### What else there is of such a machine -/

/-- A machine between two instructions, beside the sound one by which it is judged: itself, or the one on
which a process that waits in vain is queued only once. -/
inductive Seen (ps : List Program) (s : Machine) : Machine → Prop where
  | clear (sound : Sound ps s) : Seen ps s s
  | crowded {key : Int} {p : ControlBlock} {r : Resource} {n : Nat} {m : Machine} (sound : Sound ps s)
    (stuck : Stuck s key p r) (same : m.inside = (s.crowd r key n).inside) : Seen ps s m

/-- A machine between two requests, beside the sound one by which it is judged. -/
inductive Kept (ps : List Program) (s : Machine) : Machine → Prop where
  | clear (sound : Sound ps s) (settled : Settled s) : Kept ps s s
  | crowded {key : Int} {p : ControlBlock} {r : Resource} {n : Nat} {m : Machine} (sound : Sound ps s)
    (stuck : Stuck s key p r) (same : m.inside = (s.crowd r key n).inside) : Kept ps s m

/-- Two machines agree in all but the files, the input, the log and how often a process is queued for a
resource. -/
structure Mirrors (s m : Machine) : Prop where
  quantum : m.quantum = s.quantum
  memory : m.memory = s.memory
  clock : m.clock = s.clock
  metrics : m.metrics = s.metrics
  current : m.current = s.current
  next : m.nextAddress = s.nextAddress
  processes : m.scheduler.processes = s.scheduler.processes
  queue : ∀ st, (∀ r, st ≠ .blocked r) → m.scheduler.queue st = s.scheduler.queue st
  waits : ∀ r key, key ∈ m.scheduler.queue (.blocked r) ↔ key ∈ s.scheduler.queue (.blocked r)
  permits : ∀ r, m.scheduler.permits r = s.scheduler.permits r
  rests : m.Rests ↔ s.Rests

namespace Mirrors

variable {ps : List Program} {s m : Machine}

theorem of_inside (same : m.inside = s.inside) : Mirrors s m := by
  have scheduler := Machine.scheduler_of_inside same
  refine ⟨Machine.quantum_of_inside same, Machine.memory_of_inside same, Machine.clock_of_inside same,
    Machine.metrics_of_inside same, Machine.current_of_inside same, Machine.nextAddress_of_inside same,
    ?_, fun st _ => ?_, fun r key => ?_, fun r => ?_, Machine.rests_of_inside same⟩
  · rw [scheduler]
  · rw [scheduler]
  · rw [scheduler]
  · rw [scheduler]

theorem crowd {r : Resource} {key : Int} (waits : key ∈ s.scheduler.queue (.blocked r)) (n : Nat) :
    Mirrors s (s.crowd r key n) := by
  refine ⟨rfl, rfl, rfl, rfl, rfl, rfl, rfl, fun st other => ?_, fun r' k => ?_, fun r' => ?_, .rfl⟩
  · exact (Scheduler.queue_crowd _ _ _ _ _).trans (if_neg (other r))
  · change k ∈ (s.scheduler.crowd r key n).queue _ ↔ _
    rw [Scheduler.queue_crowd]
    split
    · rename_i same
      rw [same, List.mem_append, or_iff_left_iff_imp]
      intro more
      rwa [List.eq_of_mem_replicate more]
    · rfl
  · exact Scheduler.permits_crowd _ _ _ _ _

theorem trans {m' : Machine} (h : Mirrors s m) (h' : Mirrors m m') : Mirrors s m' :=
  ⟨h'.quantum.trans h.quantum, h'.memory.trans h.memory, h'.clock.trans h.clock,
    h'.metrics.trans h.metrics, h'.current.trans h.current, h'.next.trans h.next,
    h'.processes.trans h.processes, fun st other => (h'.queue st other).trans (h.queue st other),
    fun r key => (h'.waits r key).trans (h.waits r key), fun r => (h'.permits r).trans (h.permits r),
    h'.rests.trans h.rests⟩

theorem process? (h : Mirrors s m) (key : Int) : m.scheduler.process? key = s.scheduler.process? key :=
  congrArg (fun t : ProcessTable => t.process? key) h.processes

theorem pidOf (h : Mirrors s m) (key : Int) : m.scheduler.pidOf key = s.scheduler.pidOf key :=
  congrArg (fun t : ProcessTable => t.pidOf key) h.processes

theorem now (h : Mirrors s m) : m.now = s.now := congrArg Clock.now h.clock

theorem layout (h : Mirrors s m) (layout : Layout ps s) : Layout ps m := by
  refine layout.of_place h.quantum h.memory h.next (congrArg List.length h.processes) ?_
  intro key p known
  exact ⟨p, (h.process? key).symm.trans known, rfl⟩

end Mirrors

theorem Stuck.waits {ps : List Program} {s : Machine} {key : Int} {p : ControlBlock} {r : Resource}
    (stuck : Stuck s key p r) (h : Sound ps s) : key ∈ s.scheduler.queue (.blocked r) :=
  h.orderly.mem_queue_of_station stuck.known stuck.stands

theorem Stuck.mirrors {ps : List Program} {s m : Machine} {key : Int} {p : ControlBlock} {r : Resource}
    {n : Nat} (stuck : Stuck s key p r) (h : Sound ps s) (same : m.inside = (s.crowd r key n).inside) :
    Mirrors s m :=
  (Mirrors.crowd (stuck.waits h) n).trans (.of_inside same)

/-- While a process waits in vain, none is running that has the processor. -/
theorem Stuck.not_runs {s m : Machine} {key k : Int} {p : ControlBlock} {r : Resource}
    (stuck : Stuck s key p r) (mirrors : Mirrors s m) : ¬m.Runs k := by
  rintro ⟨current, q, known, running⟩
  rw [mirrors.current, stuck.current] at current
  cases current
  rw [mirrors.process?, stuck.known] at known
  cases known
  have blocked := ControlBlock.state_of_station? stuck.stands
  exact absurd (running.symm.trans blocked) (by simp [Station.state])

namespace Seen

variable {ps : List Program} {s m : Machine} {key : Int}

theorem sound (h : Seen ps s m) : Sound ps s := by
  cases h with
  | clear sound | crowded sound _ _ => exact sound

theorem mirrors (h : Seen ps s m) : Mirrors s m := by
  cases h with
  | clear sound => exact .of_inside rfl
  | crowded sound stuck same => exact stuck.mirrors sound same

theorem layout (h : Seen ps s m) : Layout ps m := h.mirrors.layout h.sound.layout

/-- A machine whose pauses are not refused is its own judge. -/
theorem eq_of_rests (h : Seen ps s m) (rests : m.Rests) : s = m := by
  cases h with
  | clear sound => rfl
  | crowded sound stuck same => exact absurd ((Machine.rests_of_inside same).1 rests) stuck.refused

/-- So is one on which the process that has the processor is running. -/
theorem eq_of_runs (h : Seen ps s m) (runs : m.Runs key) : s = m := by
  cases h with
  | clear sound => rfl
  | crowded sound stuck same =>
    exact absurd runs (stuck.not_runs (stuck.mirrors sound same))

/-- So is one on which any process is running. -/
theorem eq_of_running (h : Seen ps s m) {p : ControlBlock}
    (known : m.scheduler.process? key = some p) (runs : p.state = .running) : s = m := by
  have known' : s.scheduler.process? key = some p := (h.mirrors.process? key).symm.trans known
  have stands := h.sound.orderly.station?_of_running known' runs
  have current := h.sound.processor.running key (h.sound.orderly.mem_queue_of_station known' stands)
  exact h.eq_of_runs ⟨h.mirrors.current.trans current, p, known, runs⟩

/-- So is one whose processor is idle. -/
theorem eq_of_idle (h : Seen ps s m) (idle : m.current = none) : s = m := by
  cases h with
  | clear sound => rfl
  | crowded sound stuck same =>
    cases idle.symm.trans ((Machine.current_of_inside same).trans stuck.current)

end Seen

theorem Stuck.charge {s : Machine} {key : Int} {p : ControlBlock} {r : Resource}
    (stuck : Stuck s key p r) : Stuck (s.charge key) key p.counted r :=
  ⟨stuck.current, Scheduler.process?_amend_self stuck.known _, stuck.stands, stuck.instruction,
    stuck.used_up, stuck.refused⟩

theorem Stuck.load {ps : List Program} {P : Program} {s s' : Machine} {key : Int} {p : ControlBlock}
    {r : Resource} (stuck : Stuck s key p r) (h : Sound ps s) (load : Load P s s') :
    Stuck s' key p r := by
  have instruction := (h.instruction_load load stuck.known).trans stuck.instruction
  obtain ⟨released, loaded, arrival⟩ := load
  exact ⟨stuck.current, arrival.process?_of_some stuck.known, stuck.stands, instruction,
    (arrival.permits r).symm ▸ stuck.used_up, stuck.refused⟩

/-- A program is loaded the same way, whoever waits for a resource. -/
theorem Load.of_crowd {P : Program} {s m m' : Machine} {r : Resource} {key : Int} {n : Nat}
    (load : Load P m m') (same : m.inside = (s.crowd r key n).inside) :
    ∃ s', Load P s s' ∧ m'.inside = (s'.crowd r key n).inside := by
  obtain @⟨memory, last, s₁, released, loaded, arrival⟩ := load
  have scheduler : m.scheduler = s.scheduler.crowd r key n := Machine.scheduler_of_inside same
  have memory' : m.memory = s.memory := (Machine.memory_of_inside same).trans rfl
  have next : m.nextAddress = s.nextAddress := (Machine.nextAddress_of_inside same).trans rfl
  have quantum : m.quantum = s.quantum := (Machine.quantum_of_inside same).trans rfl
  rw [memory', next] at loaded
  rw [scheduler, next, quantum] at arrival
  have own := Scheduler.arrival_add (s := s.scheduler)
    (p := .create s.scheduler.processes.nextKey s.quantum P.release s.nextAddress last) rfl rfl
  refine ⟨_, .intro released loaded own, ?_⟩
  cases arrival.unique (own.crowd r key n)
  exact congrArg (fun x : Machine => { x with
    memory
    scheduler := ((s.scheduler.add (.create s.scheduler.processes.nextKey s.quantum P.release
      s.nextAddress last)).addPending s.scheduler.processes.nextKey).crowd r key n
    nextAddress := last + 1 }) same

namespace Kept

variable {ps : List Program} {P : Program} {s m m' : Machine}

theorem seen (h : Kept ps s m) : Seen ps s m := by
  cases h with
  | clear sound settled => exact .clear sound
  | crowded sound stuck same => exact .crowded sound stuck same

theorem sound (h : Kept ps s m) : Sound ps s := by
  cases h with
  | clear sound _ | crowded sound _ _ => exact sound

theorem mirrors (h : Kept ps s m) : Mirrors s m := h.seen.mirrors

theorem layout (h : Kept ps s m) : Layout ps m := h.seen.layout

theorem settled_of_rests (h : Kept ps s m) (rests : m.Rests) : Settled m := by
  cases h with
  | clear sound settled => exact settled
  | crowded sound stuck same => exact absurd ((Machine.rests_of_inside same).1 rests) stuck.refused

theorem quiet (h : Kept ps s m) (same : m'.inside = m.inside) : ∃ s', Kept ps s' m' ∧ Moves s s' := by
  cases h with
  | clear sound settled =>
    exact ⟨m', .clear (sound.of_inside same) (settled.of_inside same), .single (.work (.outside same))⟩
  | crowded sound stuck same' => exact ⟨s, .crowded sound stuck (same.trans same'), .refl⟩

theorem load (h : Kept ps s m) (load : Load P m m') : ∃ s', Kept (ps ++ [P]) s' m' ∧ Load P s s' := by
  cases h with
  | clear sound settled => exact ⟨m', .clear (sound.load load) (settled.load load), load⟩
  | crowded sound stuck same =>
    obtain ⟨s', own, same'⟩ := load.of_crowd same
    exact ⟨s', .crowded (sound.load own) (stuck.load sound own) same', own⟩

theorem step (h : Kept ps s m) : ∃ s', Kept ps s' (after Machine.step m) ∧ Moves s s' := by
  cases h with
  | clear sound settled =>
    obtain ⟨run, settled' | ⟨key, p, r, stuck⟩⟩ := sound.after_step settled
    · exact ⟨_, .clear (sound.moves run) settled', run⟩
    · refine ⟨_, .crowded (n := 0) (sound.moves run) stuck ?_, run⟩
      rw [Machine.crowd_zero]
  | crowded sound stuck same =>
    obtain ⟨s₁, fault, m', promotion, stuck₁, -, result, -, inside⟩ := stuck.step sound same
    have run : Moves s (s₁.charge _) := promotion.works.moves.tail (.linger stuck₁)
    rw [after_of_error result]
    exact ⟨_, .crowded (sound.moves run) stuck₁.charge inside, run⟩

theorem beginStep (h : Kept ps s m) (k : Nat) :
    ∃ s', Seen ps s' (after (Machine.beginStep k) m) ∧ Moves s s' := by
  cases h with
  | clear sound settled =>
    have run := sound.after_beginStep settled k
    exact ⟨_, .clear (sound.moves run), run⟩
  | crowded sound stuck same =>
    cases k with
    | zero =>
      obtain ⟨s₁, m₁, promotion, stuck₁, promoted, same₁⟩ := stuck.promotes sound same
      have current := (Machine.current_of_inside same₁).trans stuck₁.current
      have result := Machine.after_beginStep_of_busy promoted (Machine.occupy_of_busy current) current 0
      rw [result]
      exact ⟨s₁, .crowded (sound.works promotion.works) stuck₁ same₁, promotion.works.moves⟩
    | succ k =>
      obtain ⟨s₁, fault, m', promotion, stuck₁, -, -, result, inside⟩ := stuck.step sound same
      have run : Moves s (s₁.charge _) := promotion.works.moves.tail (.linger stuck₁)
      rw [after_of_error (result k)]
      exact ⟨_, .crowded (sound.moves run) stuck₁.charge inside, run⟩

end Kept

end RoundRobin
