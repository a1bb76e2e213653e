import Mathlib.Logic.Relation
import RoundRobin.Proofs.Sound

/-!
# Moves

All that the machine ever does, as a relation with one rule per kind of change (`Move`). A process
is promoted, takes the processor, completes an instruction, is blocked by one, or leaves the
processor; the clock ticks while nothing can run; and the files, the input and the log change
without anything else. If the pause after an instruction is refused, then the process stays where it
is, though the instruction was executed and counted (`Stall`), also if the instruction has blocked it
(`Stuck`). What an instruction does to the memory and to the scheduler when it completes
is `Effect`. Every rule has the conditions under which its change happens.

A move keeps the machine sound (`Sound.move`), so an invariant of the system is shown by looking at
each move from a sound machine (`Moves.invariant`).
-/

namespace RoundRobin

/-- An instruction that concerns no resource. -/
def Instruction.Plain (i : Instruction) : Prop := ∀ r, i ≠ .semWait r ∧ i ≠ .semSignal r

/-- What an instruction of the process under a key does to the memory and the scheduler when it
completes. -/
inductive Effect (memory : Memory) (s : Scheduler) (key : Int) (p : ControlBlock) :
    Instruction → Memory → Scheduler → Prop where
  | acquire {r : Resource} (left : 0 < s.permits r) :
    Effect memory s key p (.semWait r) memory (s.withPermits r (s.permits r - 1))
  | release {r : Resource} (nobody : s.queue (.blocked r) = []) :
    Effect memory s key p (.semSignal r) memory (s.withPermits r 1)
  | wake {r : Resource} {woken : Int} {rest : Queue} {s' : Scheduler}
    (front : s.queue (.blocked r) = woken :: rest)
    (moved : Transfer woken (.blocked r) .ready (s.withPermits r 1) s') :
    Effect memory s key p (.semSignal r) memory s'
  | bind {name value : String} {source : Source} {memory' : Memory}
    (allowed : Slot.isReservedName name = false) (room : p.bound < 3)
    (written : memory.write? p.nextSlot ⟨name, value⟩ = .ok memory') :
    Effect memory s key p (.assign name source) memory'
      (s.amend key fun p => { p with bound := p.bound + 1 })
  | store {path name value : String} {a : Int} {memory' : Memory}
    (allowed : Slot.isReservedName name = false) (found : memory.addressOf name = some a)
    (written : memory.write? a ⟨name, value⟩ = .ok memory') :
    Effect memory s key p (.readFile path name) memory' s
  | nothing {i : Instruction} (plain : i.Plain) :
    Effect memory s key p i memory s

namespace ControlBlock

/-- A process of which one more instruction is counted. -/
def counted (p : ControlBlock) : ControlBlock := { p with executed := p.executed + 1 }

/-- A process that has taken the processor. -/
def started (now : Int) (p : ControlBlock) : ControlBlock :=
  { p with startTime := some (p.startTime.getD now) }

/-- A process that has come to its end. -/
def ended (now : Int) (p : ControlBlock) : ControlBlock := { p with endTime := some now }

end ControlBlock

namespace Machine

/-- The machine with one process changed. -/
def change (m : Machine) (key : Int) (f : ControlBlock → ControlBlock) : Machine :=
  { m with scheduler := m.scheduler.amend key f }

/-- The machine after an instruction of a process was counted, with its tick. -/
def charge (m : Machine) (key : Int) : Machine :=
  { m.change key ControlBlock.counted with
    clock := m.clock.tick
    metrics := m.metrics.countActive }

end Machine

/-- The process under a key has the processor and stands at an instruction. -/
structure Facing (m : Machine) (key : Int) (p : ControlBlock) (i : Instruction) : Prop where
  current : m.current = some key
  known : m.scheduler.process? key = some p
  runs : p.state = .running
  instruction : (m.memory.instructionSlot? p.pc).map Prod.snd = some i

/-- The process at the front of the ready queue takes the idle processor. -/
inductive Dispatch (key : Int) (p : ControlBlock) (m : Machine) : Machine → Prop where
  | intro {rest : Queue} {s : Scheduler} (idle : m.current = none)
    (front : m.scheduler.queue .ready = key :: rest) (known : m.scheduler.process? key = some p)
    (moved : Transfer key .ready .running m.scheduler s) :
    Dispatch key p m
      { m with
        scheduler := s.amend key (ControlBlock.started m.now)
        current := some key
        metrics := { m.metrics with contextSwitches := m.metrics.contextSwitches + 1 } }

/-- The process under a key completes the instruction that it faces, and goes on. -/
inductive Completion (key : Int) (p : ControlBlock) (i : Instruction) (m : Machine) :
    Machine → Prop where
  | intro {memory : Memory} {s : Scheduler} (facing : Facing m key p i)
    (effect : Effect m.memory m.scheduler key p i memory s) :
    Completion key p i m
      ((({ m with memory, scheduler := s } : Machine).charge key).change key ControlBlock.advance)

/-- The process under a key is blocked by the instruction that it faces. -/
inductive Blocking (key : Int) (p : ControlBlock) (r : Resource) (m : Machine) :
    Machine → Prop where
  | intro {s : Scheduler} (facing : Facing m key p (.semWait r))
    (used_up : ¬0 < m.scheduler.permits r)
    (moved : Transfer key .running (.blocked r) m.scheduler s) :
    Blocking key p r m (({ m with scheduler := s } : Machine).charge key)

/-- The process under a key completes the instruction that it faces, but stays in front of it, since
the pause after it is refused. -/
inductive Stall (key : Int) (p : ControlBlock) (i : Instruction) (m : Machine) : Machine → Prop where
  | intro {memory : Memory} {s : Scheduler} (facing : Facing m key p i)
    (effect : Effect m.memory m.scheduler key p i memory s) (refused : ¬m.Rests) :
    Stall key p i m (({ m with memory, scheduler := s } : Machine).charge key)

/-- The process under a key was blocked by the instruction that it faces, but has the processor still,
since the pause after the instruction was refused. -/
structure Stuck (m : Machine) (key : Int) (p : ControlBlock) (r : Resource) : Prop where
  current : m.current = some key
  known : m.scheduler.process? key = some p
  stands : p.station? = some (.blocked r)
  instruction : (m.memory.instructionSlot? p.pc).map Prod.snd = some (.semWait r)
  used_up : ¬0 < m.scheduler.permits r
  refused : ¬m.Rests

/-- The process under a key leaves the processor after a turn that began at a given time: it was
blocked, it still faces an instruction, or it has come to its end. -/
inductive Departure (key start : Int) (m : Machine) : Machine → Prop where
  | yield {p : ControlBlock} (current : m.current = some key)
    (known : m.scheduler.process? key = some p) (blocked : p.state = .blocked) :
    Departure key start m
      { m with current := none, metrics := m.metrics.logSlice ⟨key, start, m.now⟩ }
  | preempt {p : ControlBlock} {i : Instruction} {s : Scheduler} (facing : Facing m key p i)
    (moved : Transfer key .running .ready m.scheduler s) :
    Departure key start m
      { m with
        scheduler := s
        current := none
        metrics := m.metrics.logSlice ⟨key, start, m.now⟩ }
  | terminate {p : ControlBlock} {s : Scheduler} {record : Record} (current : m.current = some key)
    (known : m.scheduler.process? key = some p) (runs : p.state = .running)
    (at_end : m.memory.instructionSlot? p.pc = none)
    (moved : Transfer key .running .terminated
      (m.scheduler.amend key (ControlBlock.ended m.now)) s)
    (recorded : Record.ofProcess? (p.ended m.now) = some record) :
    Departure key start m
      { m with
        scheduler := s
        current := none
        metrics := (m.metrics.logSlice ⟨key, start, m.now⟩).logRecord record }

/-- One change of the machine for which no time is idled away. -/
inductive Work (m : Machine) : Machine → Prop where
  | outside {m' : Machine} (same : m'.inside = m.inside) : Work m m'
  | promote {key : Int} {p : ControlBlock} {s : Scheduler}
    (known : m.scheduler.process? key = some p) (stands : p.station? = some .pending)
    (due : p.releaseTime ≤ m.now) (moved : Transfer key .pending .ready m.scheduler s) :
    Work m { m with scheduler := s }
  | dispatch {key : Int} {p : ControlBlock} {m' : Machine} (dispatch : Dispatch key p m m') :
    Work m m'
  | complete {key : Int} {p : ControlBlock} {i : Instruction} {m' : Machine}
    (completion : Completion key p i m m') : Work m m'
  | block {key : Int} {p : ControlBlock} {r : Resource} {m' : Machine}
    (blocking : Blocking key p r m m') : Work m m'
  | depart {key start : Int} {m' : Machine} (departure : Departure key start m m') : Work m m'

/-- One change of the machine: some work, a tick in which nothing can run, or an instruction with a
tick that is executed in vain, since the pause after it is refused. -/
inductive Move (m : Machine) : Machine → Prop where
  | work {m' : Machine} (work : Work m m') : Move m m'
  | stall {key : Int} {p : ControlBlock} {i : Instruction} {m' : Machine}
    (stall : Stall key p i m m') : Move m m'
  | linger {key : Int} {p : ControlBlock} {r : Resource} (stuck : Stuck m key p r) :
    Move m (m.charge key)
  | idle (idle : m.current = none) (nobody : m.scheduler.queue .ready = [])
    (early : ∀ key p, key ∈ m.scheduler.queue .pending → m.scheduler.process? key = some p →
      m.now < p.releaseTime) :
    Move m { m with clock := m.clock.tick, metrics := m.metrics.countIdle }

/-- Any amount of work. -/
abbrev Works : Machine → Machine → Prop := Relation.ReflTransGen Work

/-- Any number of moves. -/
abbrev Moves : Machine → Machine → Prop := Relation.ReflTransGen Move

theorem Works.moves {m m' : Machine} (works : Works m m') : Moves m m' := by
  induction works with
  | refl => exact .refl
  | tail _ work ih => exact ih.tail (.work work)

/-! ### Moves keep the machine sound -/

theorem Transfer.place {key : Int} {a b : Station} {s s' : Scheduler} (t : Transfer key a b s s')
    (k : Int) (p' : ControlBlock) (hp' : s'.process? k = some p') :
    ∃ p, s.process? k = some p ∧ p'.place = p.place := by
  obtain ⟨p, hp, ⟨-, rfl⟩ | ⟨-, rfl⟩⟩ := t.process?_cases hp'
  · exact ⟨p, hp, rfl⟩
  · exact ⟨p', hp, rfl⟩

theorem Scheduler.place_amend {s : Scheduler} {key : Int} {f : ControlBlock → ControlBlock}
    (same : ∀ p, (f p).place = p.place) (k : Int) (p' : ControlBlock)
    (hp' : (s.amend key f).process? k = some p') :
    ∃ p, s.process? k = some p ∧ p'.place = p.place := by
  obtain ⟨p, hp, ⟨-, rfl⟩ | ⟨-, rfl⟩⟩ := process?_amend_cases hp'
  · exact ⟨p, hp, same p⟩
  · exact ⟨p', hp, rfl⟩

namespace Processor

variable {m m' : Machine} {key : Int} {p : ControlBlock}

/-- A process other than the one on the processor changes nothing at the processor when it is
moved. -/
theorem transfer {a b : Station} {s : Scheduler} (h : Processor m)
    (hp : m.scheduler.process? key = some p) (other : ¬(p.state = .running ∨ p.state = .blocked) ∨
      m.current ≠ some key) (ha : a ≠ .running) (hb : b ≠ .running)
    (moved : Transfer key a b m.scheduler s) : Processor { m with scheduler := s } := by
  have queue : s.queue .running = m.scheduler.queue .running :=
    moved.queue_of_ne (Ne.symm ha) (Ne.symm hb)
  refine ⟨fun k hk => h.running k (queue ▸ hk), fun k hk => ?_⟩
  obtain ⟨q, hq, started, state⟩ := h.current k hk
  have ne : k ≠ key := by
    rintro rfl
    cases hp.symm.trans hq
    exact other.elim (fun h => h state) (fun h => h hk)
  exact ⟨q, (moved.process?_of_ne ne).trans hq, started, state⟩

/-- A change of one process that keeps its state and its start changes nothing at the processor. -/
theorem change (h : Processor m) {f : ControlBlock → ControlBlock}
    (state : ∀ p, (f p).state = p.state) (start : ∀ p, (f p).startTime = p.startTime) :
    Processor (m.change key f) := by
  refine ⟨fun k hk => h.running k ?_, fun k hk => ?_⟩
  · rwa [Machine.change, Scheduler.queue_amend] at hk
  · obtain ⟨q, hq, started, runs⟩ := h.current k hk
    by_cases same : k = key
    · subst same
      refine ⟨f q, Scheduler.process?_amend_self hq f, ?_, ?_⟩
      · rwa [start]
      · rwa [state]
    · exact ⟨q, (Scheduler.process?_amend_of_ne _ same f).trans hq, started, runs⟩

end Processor

namespace Sound

variable {ps : List Program} {m m' : Machine} {key : Int} {p : ControlBlock} {i : Instruction}

/-- The instruction that a process faces is that of its program. -/
theorem next?_of_facing (h : Sound ps m) (facing : Facing m key p i) :
    ∃ P, Program.under ps key = some P ∧ Placed ps m key P p ∧ P.next? p = some i := by
  obtain ⟨P, hP, placed⟩ := h.layout.lookup facing.known
  exact ⟨P, hP, placed, placed.holds.instructionSlot?_pc.symm.trans facing.instruction⟩

/-- An instruction that completes changes at most the number of variables of its own process. -/
theorem process?_of_effect (h : Sound ps m) (facing : Facing m key p i) {memory : Memory}
    {s : Scheduler} (effect : Effect m.memory m.scheduler key p i memory s) :
    ∃ n, s.process? key = some { p with bound := n } := by
  have known := facing.known
  cases effect with
  | acquire | release | store | nothing => exact ⟨p.bound, known⟩
  | bind => exact ⟨p.bound + 1, Scheduler.process?_amend_self known _⟩
  | @wake r woken rest s front moved =>
    have waits : woken ∈ m.scheduler.queue (.blocked r) := by rw [front]; exact List.mem_cons_self
    have ne : key ≠ woken := by
      rintro rfl
      have blocked := h.orderly.state_of_mem waits known
      exact absurd (facing.runs.symm.trans blocked) (by simp [Station.state])
    exact ⟨p.bound, (moved.process?_of_ne ne).trans known⟩

theorem withPermits (h : Sound ps m) (r : Resource) (n : Int) :
    Sound ps { m with scheduler := m.scheduler.withPermits r n } := by
  refine ⟨h.layout.of_place rfl rfl rfl rfl fun k q hq => ⟨q, hq, rfl⟩,
    h.orderly.withPermits r n, ?_, h.processor.current⟩
  intro k hk
  exact h.processor.running k (by rwa [Scheduler.queue_withPermits] at hk)

/-- A completed instruction keeps the machine sound before its process goes on. -/
theorem effect (h : Sound ps m) (facing : Facing m key p i) {memory : Memory} {s : Scheduler}
    (effect : Effect m.memory m.scheduler key p i memory s) :
    Sound ps { m with memory, scheduler := s } := by
  have known := facing.known
  obtain ⟨line, decoded⟩ := Memory.decode_of_instructionSlot? facing.instruction
  cases effect with
  | nothing => exact h
  | acquire | release => exact h.withPermits _ _
  | @wake r woken rest s front moved =>
    have waits : woken ∈ m.scheduler.queue (.blocked r) := by rw [front]; exact List.mem_cons_self
    obtain ⟨q, hq, stands⟩ := h.orderly.process?_of_mem waits
    have ne : m.current ≠ some woken := by
      intro current
      cases facing.current.symm.trans current
      cases known.symm.trans hq
      have blocked := ControlBlock.state_of_station? stands
      exact absurd (facing.runs.symm.trans blocked) (by simp [Station.state])
    have permitted : Processor { m with scheduler := m.scheduler.withPermits r 1 } :=
      ⟨fun k hk => h.processor.running k (by rwa [Scheduler.queue_withPermits] at hk),
        h.processor.current⟩
    exact ⟨h.layout.of_place rfl rfl rfl moved.length moved.place,
      (h.orderly.withPermits r 1).transfer hq stands (by simp) moved,
      permitted.transfer hq (.inr ne) (by simp) (by simp) moved⟩
  | @bind name value source memory allowed room written =>
    have nonempty : name ≠ "" := Instruction.ne_empty_of_target? (by rw [decoded]; rfl)
    have named : Slot.IsVariable ⟨name, value⟩ := ⟨nonempty, allowed⟩
    have processor : Processor (m.change key fun p => { p with bound := p.bound + 1 }) :=
      h.processor.change (fun _ => rfl) (fun _ => rfl)
    exact ⟨h.layout.bind known room named written,
      h.orderly.amend (fun _ => rfl) (fun _ => rfl), processor.running, processor.current⟩
  | @store path name value a memory allowed found written =>
    obtain ⟨s, at_a, rfl⟩ := Memory.slot?_of_addressOf found
    have nonempty : s.name ≠ "" := Instruction.ne_empty_of_target? (by rw [decoded]; rfl)
    have named : Slot.IsVariable ⟨s.name, value⟩ := ⟨nonempty, allowed⟩
    exact ⟨h.layout.store at_a ⟨nonempty, allowed⟩ named written, h.orderly,
      h.processor.running, h.processor.current⟩

/-- A process is changed in nothing that soundness looks at. -/
theorem change (h : Sound ps m) {f : ControlBlock → ControlBlock}
    (place : ∀ p, (f p).place = p.place) (station : ∀ p, (f p).station? = p.station?)
    (state : ∀ p, (f p).state = p.state) (start : ∀ p, (f p).startTime = p.startTime) :
    Sound ps (m.change key f) :=
  ⟨h.layout.of_place rfl rfl rfl (Scheduler.length_amend _ _ _) (Scheduler.place_amend place),
    h.orderly.amend (fun p => (congrArg ControlBlock.pid (place p) :)) station,
    h.processor.change state start⟩

theorem charge (h : Sound ps m) (key : Int) : Sound ps (m.charge key) := by
  have counted : Sound ps (m.change key ControlBlock.counted) :=
    h.change (fun _ => rfl) (fun _ => rfl) (fun _ => rfl) (fun _ => rfl)
  exact ⟨counted.layout.of_place rfl rfl rfl rfl fun k q hq => ⟨q, hq, rfl⟩, counted.orderly,
    counted.processor.running, counted.processor.current⟩

/-- A process goes on to the next instruction. -/
theorem advance (h : Sound ps m) (hp : m.scheduler.process? key = some p) {P : Program}
    (hP : Program.under ps key = some P) (standing : P.next? p = some i) :
    Sound ps (m.change key ControlBlock.advance) := by
  have placed := h.layout.placed key P p hP hp
  have kept : ∀ p : ControlBlock, p.advance.pid = p.pid ∧ p.advance.station? = p.station? ∧
      p.advance.state = p.state ∧ p.advance.startTime = p.startTime := by
    intro p
    unfold ControlBlock.advance
    split <;> exact ⟨rfl, rfl, rfl, rfl⟩
  refine ⟨h.layout.of_change hp hP ?_, h.orderly.amend (fun p => (kept p).1) fun p => (kept p).2.1,
    h.processor.change (fun p => (kept p).2.2.1) fun p => (kept p).2.2.2⟩
  have eq := placed.holds.advance_eq standing
  refine ⟨?_, ?_, ?_, placed.holds.advance standing⟩
  · rw [eq]
    exact placed.release
  · rw [eq]
    exact placed.quantum
  · rw [eq]
    exact placed.lower

/-- The queue of the processor empties when its process leaves it. -/
theorem not_mem_erase_running (h : Sound ps m) (current : m.current = some key) (k : Int) :
    k ∉ (m.scheduler.queue .running).erase key := by
  intro hk
  have same : m.current = some k := h.processor.running k (List.mem_of_mem_erase hk)
  cases current.symm.trans same
  exact List.Nodup.not_mem_erase (h.orderly.nodup_queue .running) hk

/-- A process that is taken off the processor leaves it empty. -/
theorem leave (h : Sound ps m) {s : Scheduler} {metrics : Metrics} {b : Station}
    (current : m.current = some key) (known : m.scheduler.process? key = some p)
    (runs : p.state = .running) (ne : b ≠ .running)
    (moved : Transfer key .running b m.scheduler s) :
    Sound ps { m with scheduler := s, current := none, metrics } := by
  have stands := h.orderly.station?_of_running known runs
  refine ⟨h.layout.of_place rfl rfl rfl moved.length moved.place,
    h.orderly.transfer known stands (Ne.symm ne) moved, ?_, ?_⟩
  · intro k hk
    have erased : k ∈ (m.scheduler.queue .running).erase key := by
      rw [moved.queue, if_neg (Ne.symm ne), if_pos rfl] at hk
      exact hk
    exact absurd erased (h.not_mem_erase_running current k)
  · intro k hk
    cases hk

theorem dispatch (h : Sound ps m) (dispatch : Dispatch key p m m') : Sound ps m' := by
  obtain @⟨rest, s, idle, front, known, moved⟩ := dispatch
  have waits : key ∈ m.scheduler.queue .ready := by rw [front]; exact List.mem_cons_self
  obtain ⟨q, hq, stands⟩ := h.orderly.process?_of_mem waits
  have orderly := h.orderly.transfer hq stands (by decide) moved
  refine ⟨h.layout.of_place rfl rfl rfl ((Scheduler.length_amend _ _ _).trans moved.length) ?_,
    orderly.amend (fun _ => rfl) (fun _ => rfl), ?_, ?_⟩
  · intro k p' hp'
    obtain ⟨p₁, hp₁, same₁⟩ :=
      Scheduler.place_amend (f := ControlBlock.started m.now) (fun _ => rfl) k p' hp'
    obtain ⟨p₂, hp₂, same₂⟩ := moved.place k p₁ hp₁
    exact ⟨p₂, hp₂, same₁.trans same₂⟩
  · intro k hk
    rw [Scheduler.queue_amend, moved.queue, if_pos rfl] at hk
    rcases List.mem_append.1 hk with old | new
    · have busy := h.processor.running k old
      rw [idle] at busy
      cases busy
    · rw [List.mem_singleton.1 new]
  · intro k hk
    cases hk
    exact ⟨_, Scheduler.process?_amend_self (moved.process?_self known) _, rfl, .inl rfl⟩

theorem complete (h : Sound ps m) (completion : Completion key p i m m') : Sound ps m' := by
  obtain ⟨facing, effect⟩ := completion
  obtain ⟨P, hP, placed, standing⟩ := h.next?_of_facing facing
  obtain ⟨n, hn⟩ := h.process?_of_effect facing effect
  exact ((h.effect facing effect).charge key).advance
    (Scheduler.process?_amend_self hn ControlBlock.counted) hP standing

theorem block (h : Sound ps m) {r : Resource} (blocking : Blocking key p r m m') :
    Sound ps m' := by
  obtain @⟨s, facing, used_up, moved⟩ := blocking
  have stands := h.orderly.station?_of_running facing.known facing.runs
  have blocked : Sound ps { m with scheduler := s } := by
    refine ⟨h.layout.of_place rfl rfl rfl moved.length moved.place,
      h.orderly.transfer facing.known stands (by simp) moved, ?_, ?_⟩
    · intro k hk
      have erased : k ∈ (m.scheduler.queue .running).erase key := by
        rw [moved.queue, if_neg (by simp), if_pos rfl] at hk
        exact hk
      exact absurd erased (h.not_mem_erase_running facing.current k)
    · intro k hk
      obtain ⟨q, hq, started, -⟩ := h.processor.current k hk
      cases facing.current.symm.trans hk
      cases facing.known.symm.trans hq
      exact ⟨_, moved.process?_self hq, started, .inr rfl⟩
  exact blocked.charge key

theorem depart (h : Sound ps m) {start : Int} (departure : Departure key start m m') :
    Sound ps m' := by
  cases departure with
  | @yield p current known blocked =>
    refine ⟨h.layout.of_place rfl rfl rfl rfl fun k q hq => ⟨q, hq, rfl⟩, h.orderly, ?_, ?_⟩
    · intro k hk
      have same := h.processor.running k hk
      cases current.symm.trans same
      have runs := h.orderly.state_of_mem hk known
      exact absurd (blocked.symm.trans runs) (by simp [Station.state])
    · intro k hk
      cases hk
  | preempt facing moved =>
    exact h.leave facing.current facing.known facing.runs
      (show Station.ready ≠ .running by decide) moved
  | terminate current known runs at_end moved recorded =>
    have ended : Sound ps (m.change key (ControlBlock.ended m.now)) :=
      h.change (fun _ => rfl) (fun _ => rfl) (fun _ => rfl) (fun _ => rfl)
    exact ended.leave current (Scheduler.process?_amend_self known _) runs
      (show Station.terminated ≠ .running by decide) moved

theorem work (h : Sound ps m) (work : Work m m') : Sound ps m' := by
  cases work with
  | outside same => exact h.of_inside same
  | promote known stands due moved =>
    have state := ControlBlock.state_of_station? stands
    exact ⟨h.layout.of_place rfl rfl rfl moved.length moved.place,
      h.orderly.transfer known stands (by decide) moved,
      h.processor.transfer known (.inl (by simp [state, Station.state])) (by decide) (by decide)
        moved⟩
  | dispatch dispatch => exact h.dispatch dispatch
  | complete completion => exact h.complete completion
  | block blocking => exact h.block blocking
  | depart departure => exact h.depart departure

/-- Every move keeps the machine sound. -/
theorem move (h : Sound ps m) (move : Move m m') : Sound ps m' := by
  cases move with
  | work work => exact h.work work
  | stall stall =>
    obtain ⟨facing, effect, -⟩ := stall
    exact (h.effect facing effect).charge _
  | linger => exact h.charge _
  | idle =>
    exact ⟨h.layout.of_place rfl rfl rfl rfl fun k q hq => ⟨q, hq, rfl⟩, h.orderly,
      h.processor.running, h.processor.current⟩

theorem moves (h : Sound ps m) (run : Moves m m') : Sound ps m' := by
  induction run with
  | refl => exact h
  | tail _ step ih => exact ih.move step

theorem works (h : Sound ps m) (run : Works m m') : Sound ps m' := h.moves run.moves

end Sound

/-- What holds of a sound machine, and is kept by every move from one, holds after any number of
moves. -/
theorem Moves.invariant {ps : List Program} {Q : Machine → Prop}
    (keeps : ∀ m m', Sound ps m → Q m → Move m m' → Q m') {m m' : Machine} (run : Moves m m')
    (h : Sound ps m) (start : Q m) : Q m' := by
  induction run with
  | refl => exact start
  | tail run step ih => exact keeps _ _ (h.moves run) ih step

end RoundRobin
