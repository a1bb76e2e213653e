import RoundRobin.Proofs.Deed
import RoundRobin.Proofs.Fixtures

/-!
# What an instruction can reach

What an instruction may change, and that it changes nothing else (`Scope`). The clock, what is
measured, and a process apart from its station and the number of its variables are out of reach for
all instructions. Each kind of instruction reaches one thing: the semaphores reach one resource and one
process, binding and setting a variable one slot, writing one file. All of it is read off what the
instruction did (`Deed`).
-/

namespace RoundRobin

open Operation

/-- What of a process no instruction changes: all but its station and the number of its variables. -/
def ControlBlock.core (p : ControlBlock) : ControlBlock := { p.body with bound := 0 }

/-- Where a process stands. -/
def ControlBlock.stand (p : ControlBlock) : ProcessState × Waiting := (p.state, p.blockedOn)

/-- Whether an event is a request for input. -/
def Event.isPrompt : Event → Bool
  | .prompt _ => true
  | _ => false

namespace Scheduler

/-- Nobody is moved, and no semaphore is changed. -/
structure Unmoved (s s' : Scheduler) : Prop where
  queues : ∀ st, s'.queue st = s.queue st
  permits : ∀ r, s'.permits r = s.permits r
  stands : s'.processes.map ControlBlock.stand = s.processes.map ControlBlock.stand

/-- At most one process is moved, between the processor, the ready queue and the queue of one
resource, and no other semaphore is changed. -/
structure MovedAt (r : Resource) (who : Int) (s s' : Scheduler) : Prop where
  others : ∀ key, key ≠ who → s'.process? key = s.process? key
  queues : ∀ st, (s'.queue st).filter (· ≠ who) = (s.queue st).filter (· ≠ who)
  elsewhere : ∀ st, st ≠ .running → st ≠ .ready → st ≠ .blocked r → s'.queue st = s.queue st
  permits : ∀ other, other ≠ r → s'.permits other = s.permits other

theorem Unmoved.refl (s : Scheduler) : Unmoved s s := ⟨fun _ => rfl, fun _ => rfl, rfl⟩

theorem Unmoved.amend (s : Scheduler) (key : Int) {f : ControlBlock → ControlBlock}
    (same : ∀ p, (f p).stand = p.stand) : Unmoved s (s.amend key f) :=
  ⟨s.queue_amend key f, s.permits_amend key f, s.map_amend key same⟩

namespace MovedAt

variable {s s' s'' : Scheduler} {r : Resource} {who : Int}

theorem withPermits (s : Scheduler) (r : Resource) (n who : Int) :
    MovedAt r who s (s.withPermits r n) := by
  refine ⟨fun _ _ => rfl, fun st => ?_, fun st _ _ _ => s.queue_withPermits r n st, ?_⟩
  · rw [s.queue_withPermits]
  · intro other ne
    rw [permits_withPermits, if_neg ne]

theorem of_transfer {a b : Station} (moved : Transfer who a b s s')
    (near : a = .running ∨ a = .ready ∨ a = .blocked r)
    (near' : b = .running ∨ b = .ready ∨ b = .blocked r) : MovedAt r who s s' := by
  refine ⟨fun _ => moved.process?_of_ne, fun st => ?_, fun st running ready blocked => ?_,
    fun other _ => moved.permits other⟩
  · rw [moved.queue]
    split
    · rename_i same
      simp [same]
    · split
      · rename_i same
        rw [same, ← List.erase_filter, List.erase_of_not_mem (by simp)]
      · rfl
  · apply moved.queue_of_ne
    · rintro rfl
      rcases near with rfl | rfl | rfl <;> contradiction
    · rintro rfl
      rcases near' with rfl | rfl | rfl <;> contradiction

theorem trans (first : MovedAt r who s s') (second : MovedAt r who s' s'') : MovedAt r who s s'' :=
  ⟨fun key ne => (second.others key ne).trans (first.others key ne),
    fun st => (second.queues st).trans (first.queues st),
    fun st running ready blocked =>
      (second.elsewhere st running ready blocked).trans (first.elsewhere st running ready blocked),
    fun other ne => (second.permits other ne).trans (first.permits other ne)⟩

end MovedAt

end Scheduler

/-- What an instruction does to the memory and to the number of variables of its process. -/
inductive Writes (p p' : ControlBlock) (m m' : Memory) : Instruction → Prop where
  | nothing {i : Instruction} (same : m' = m) (bound : p'.bound = p.bound) : Writes p p' m m' i
  /-- A variable is bound in the next of the reserved slots. -/
  | binds {name value : String} {source : Source} (low : p.upperBound - 2 ≤ p.upperBound - 2 + p.bound)
    (high : p.upperBound - 2 + p.bound ≤ p.upperBound)
    (free : m.slot? (p.upperBound - 2 + p.bound) = some Slot.free)
    (slots : ∀ a, m'.slot? a
      = if a = p.upperBound - 2 + p.bound then some ⟨name, value⟩ else m.slot? a)
    (bound : p'.bound = p.bound + 1) : Writes p p' m m' (.assign name source)
  /-- A variable that is bound already is set. -/
  | sets {path value : String} {a : Int} {s : Slot} (at_a : m.slot? a = some s)
    (named : s.IsVariable) (slots : ∀ b, m'.slot? b = if b = a then some ⟨s.name, value⟩ else m.slot? b)
    (bound : p'.bound = p.bound) : Writes p p' m m' (.readFile path s.name)

/-- What an instruction of the process under a key changes at most, and whether the process may go on
then. -/
structure Scope (key : Int) (p : ControlBlock) (i : Instruction) (m : Machine) (goesOn : Bool)
    (m' : Machine) : Prop where
  /-- The clock, the metrics and the processor are out of reach. -/
  frame : m' = { m with
    memory := m'.memory, scheduler := m'.scheduler, storage := m'.storage, inputs := m'.inputs,
    log := m'.log }
  cores : m'.scheduler.processes.map ControlBlock.core = m.scheduler.processes.map ControlBlock.core
  plain : i.Plain → m.scheduler.Unmoved m'.scheduler
  semaphore : ∀ r, i = .semWait r ∨ i = .semSignal r → ∃ who, m.scheduler.MovedAt r who m'.scheduler
  writes : ∃ p', m'.scheduler.process? key = some p' ∧ Writes p p' m.memory m'.memory i
  /-- Lines of programs and slots that no program uses stay as they are. -/
  kept : ∀ a s, m.memory.slot? a = some s → s.name = Slot.instructionName ∨ s.name = "" →
    m'.memory.slot? a = some s
  bounds : ∀ k, k ≠ key → (m'.scheduler.process? k).map ControlBlock.bound
    = (m.scheduler.process? k).map ControlBlock.bound
  files : (∀ path name, i ≠ .writeFile path name) → m'.storage = m.storage
  file : ∀ path name, i = .writeFile path name → m'.storage = m.storage ∨
    ∃ place, m.storage.target path = .ok place ∧
      m'.storage.entryAt place = some (.file (m.bytesOf p name)) ∧
      ∀ other, other ≠ place → m'.storage.entryAt other = m.storage.entryAt other
  /-- What was done to the outside is added to the log. -/
  events : ∃ es, m'.log.toList = m.log.toList ++ es ∧
    ((∀ name, i ≠ .print name) → (∀ first last, i ≠ .printFromTo first last) →
      ∀ e ∈ es, e.output? = none) ∧
    ((∀ name, i ≠ .assign name .input) → ∀ e ∈ es, e.isPrompt = false)
  inputs : (∀ name, i ≠ .assign name .input) → m'.inputs = m.inputs
  result : goesOn = false ↔ ∃ p', m'.scheduler.process? key = some p' ∧ p'.state = .blocked

/-- An instruction that is to ask for input does nothing else in asking. -/
theorem Instruction.exists_of_mem_questions {i : Instruction} {e : Event} (he : e ∈ i.questions) :
    ∃ message, e = .prompt message := by
  obtain ⟨message, -, rfl⟩ := Option.mem_map.1 (Option.mem_toList.1 he)
  exact ⟨message, rfl⟩

namespace Shows

variable {key : Int} {p : ControlBlock} {i : Instruction} {m : Machine} {es : List Event}

/-- Only printing prints. -/
theorem output? (h : Shows key p m i es) (print : ∀ name, i ≠ .print name)
    (range : ∀ first last, i ≠ .printFromTo first last) : ∀ e ∈ es, e.output? = none := by
  have asking : ∀ e ∈ i.questions, e.output? = none := by
    intro e he
    obtain ⟨message, rfl⟩ := Instruction.exists_of_mem_questions he
    rfl
  cases h with
  | quiet => exact asking
  | blocked | woken => simp [Event.output?]
  | print => exact absurd rfl (print _)
  | range => exact absurd rfl (range _ _)
  | complaint => exact List.forall_mem_append.2 ⟨asking, by simp [Event.output?]⟩

/-- Only an assignment of input asks for input. -/
theorem isPrompt (h : Shows key p m i es) (other : ∀ name, i ≠ .assign name .input) :
    ∀ e ∈ es, e.isPrompt = false := by
  have unasked := i.questions_eq_nil other
  cases h with
  | quiet => simp [unasked]
  | range =>
    intro e he
    obtain ⟨n, -, rfl⟩ := List.mem_map.1 he
    rfl
  | _ => simp [unasked, Event.isPrompt]

end Shows

/-- A running process does not wait for anything. -/
theorem Sound.ne_of_waits {ps : List Program} {m : Machine} {key woken : Int} {p : ControlBlock}
    {r : Resource} {rest : Queue} (h : Sound ps m) (known : m.scheduler.process? key = some p)
    (runs : p.state = .running) (front : m.scheduler.queue (.blocked r) = woken :: rest) :
    key ≠ woken := by
  have waits : woken ∈ m.scheduler.queue (.blocked r) := by rw [front]; exact List.mem_cons_self
  rintro rfl
  exact absurd (runs.symm.trans (h.orderly.state_of_mem waits known)) nofun

namespace Deed

variable {ps : List Program} {key : Int} {p : ControlBlock} {i : Instruction} {m m' : Machine}
  {goesOn : Bool}

theorem frame (d : Deed key p m i goesOn m') : m' = { m with
    memory := m'.memory, scheduler := m'.scheduler, storage := m'.storage, inputs := m'.inputs,
    log := m'.log } := by
  cases d <;> rfl

theorem cores (d : Deed key p m i goesOn m') :
    m'.scheduler.processes.map ControlBlock.core = m.scheduler.processes.map ControlBlock.core := by
  cases d with
  | block used_up moved => exact moved.map_processes fun _ => rfl
  | wake front moved => exact moved.map_processes (g := ControlBlock.core) fun _ => rfl
  | bind => exact m.scheduler.map_amend key fun _ => rfl
  | _ => rfl

theorem unmoved (d : Deed key p m i goesOn m') (plain : i.Plain) :
    m.scheduler.Unmoved m'.scheduler := by
  cases d with
  | acquire | block => exact absurd rfl (plain _).1
  | release | wake => exact absurd rfl (plain _).2
  | bind => exact .amend _ key fun _ => rfl
  | _ => exact .refl _

theorem movedAt (d : Deed key p m i goesOn m') {r : Resource}
    (concerned : i = .semWait r ∨ i = .semSignal r) :
    ∃ who, m.scheduler.MovedAt r who m'.scheduler := by
  cases d with
  | acquire | release =>
    obtain rfl : _ = r := by simpa using concerned
    exact ⟨key, .withPermits _ _ _ _⟩
  | block used_up moved =>
    obtain rfl : _ = r := by simpa using concerned
    exact ⟨key, .of_transfer moved (.inl rfl) (.inr (.inr rfl))⟩
  | @wake _ woken _ _ front moved =>
    obtain rfl : _ = r := by simpa using concerned
    exact ⟨woken, (Scheduler.MovedAt.withPermits _ _ _ _).trans
      (.of_transfer moved (.inr (.inr rfl)) (.inr (.inl rfl)))⟩
  | complain grievance => cases grievance <;> simp at concerned
  | _ => simp at concerned

/-- What is written lies in a reserved slot of the process that was free, or in a variable. -/
theorem writes {text : String} (d : Deed key p m (.decode text) goesOn m') (h : Sound ps m)
    (known : m.scheduler.process? key = some p) (runs : p.state = .running) :
    ∃ p', m'.scheduler.process? key = some p' ∧
      Writes p p' m.memory m'.memory (.decode text) := by
  generalize decoded : Instruction.decode text = i at d
  cases d with
  | block used_up moved => exact ⟨_, moved.process?_self known, .nothing rfl rfl⟩
  | wake front moved =>
    exact ⟨p, (moved.process?_of_ne (h.ne_of_waits known runs front)).trans known, .nothing rfl rfl⟩
  | bind valued allowed room written =>
    obtain ⟨P, -, placed⟩ := h.layout.lookup known
    have nonneg := placed.holds.bound_nonneg
    exact ⟨_, Scheduler.process?_amend_self known _, .binds (by omega) (by omega)
      (placed.holds.slot?_nextSlot room) (Memory.slot?_write written) rfl⟩
  | @store path name text word words a memory allowed read split found written =>
    obtain ⟨s, at_a, rfl⟩ := Memory.slot?_of_addressOf found
    have nonempty : s.name ≠ "" := Instruction.ne_empty_of_target? (by rw [decoded]; rfl)
    exact ⟨p, known, .sets at_a ⟨nonempty, allowed⟩ (Memory.slot?_write written) rfl⟩
  | _ => exact ⟨p, known, .nothing rfl rfl⟩

theorem bounds (d : Deed key p m i goesOn m') {k : Int} (ne : k ≠ key) :
    (m'.scheduler.process? k).map ControlBlock.bound
      = (m.scheduler.process? k).map ControlBlock.bound := by
  have of_transfer : ∀ {who a b s s'}, Transfer who a b s s' →
      (s'.process? k).map ControlBlock.bound = (s.process? k).map ControlBlock.bound :=
    fun moved => Scheduler.map_process?_of_body? (fun _ => rfl) (moved.body?_eq k)
  cases d with
  | block used_up moved => exact of_transfer moved
  | wake front moved =>
    have same := of_transfer moved
    exact same
  | bind => exact congrArg (Option.map ControlBlock.bound) (m.scheduler.process?_amend_of_ne ne _)
  | _ => rfl

theorem files (d : Deed key p m i goesOn m') (other : ∀ path name, i ≠ .writeFile path name) :
    m'.storage = m.storage := by
  cases d with
  | write => exact absurd rfl (other _ _)
  | _ => rfl

theorem file {path name : String} (d : Deed key p m (.writeFile path name) goesOn m') :
    m'.storage = m.storage ∨ ∃ place, m.storage.target path = .ok place ∧
      m'.storage.entryAt place = some (.file (m.bytesOf p name)) ∧
      ∀ other, other ≠ place → m'.storage.entryAt other = m.storage.entryAt other := by
  cases d with
  | write written =>
    obtain ⟨place, target, entries⟩ := Storage.entryAt_write written
    exact .inr ⟨place, target, (entries place).trans (if_pos rfl),
      fun other ne => (entries other).trans (if_neg ne)⟩
  | complain => exact .inl rfl

theorem inputs (d : Deed key p m i goesOn m') (other : ∀ name, i ≠ .assign name .input) :
    m'.inputs = m.inputs := by
  have unasked : (m.asked i).inputs = m.inputs := by
    rw [m.asked_of_silent (i.questions_eq_nil other)]
  cases d with
  | bind => exact unasked
  | complain => exact unasked
  | _ => rfl

/-- A process may not go on exactly if it was blocked. -/
theorem result (d : Deed key p m i goesOn m') (h : Sound ps m)
    (known : m.scheduler.process? key = some p) (runs : p.state = .running) :
    goesOn = false ↔ ∃ p', m'.scheduler.process? key = some p' ∧ p'.state = .blocked := by
  have same : ∀ {p' : ControlBlock}, m'.scheduler.process? key = some p' → p'.state = .running →
      (true = false ↔ ∃ p', m'.scheduler.process? key = some p' ∧ p'.state = .blocked) := by
    intro p' known' runs'
    refine ⟨nofun, fun ⟨q, hq, blocked⟩ => ?_⟩
    cases known'.symm.trans hq
    exact absurd (runs'.symm.trans blocked) nofun
  cases d with
  | block used_up moved => exact ⟨fun _ => ⟨_, moved.process?_self known, rfl⟩, fun _ => rfl⟩
  | @wake r woken rest s front moved =>
    exact same ((moved.process?_of_ne (h.ne_of_waits known runs front)).trans known) runs
  | bind => exact same (Scheduler.process?_amend_self known _) runs
  | _ => exact same known runs

end Deed

/-- A slot that holds a line of a program, or that no program uses, is not written. -/
theorem Writes.kept {p p' : ControlBlock} {m m' : Memory} {i : Instruction} (w : Writes p p' m m' i)
    {a : Int} {s : Slot} (at_a : m.slot? a = some s)
    (fixed : s.name = Slot.instructionName ∨ s.name = "") : m'.slot? a = some s := by
  cases w with
  | nothing same => rwa [same]
  | binds low high free slots =>
    rw [slots]
    split
    · rename_i here
      rw [here, free] at at_a
      cases at_a
      simp [Slot.free, Slot.freeName, Slot.instructionName] at fixed
    · exact at_a
  | sets taken named slots =>
    rw [slots]
    split
    · rename_i here
      rw [here, taken] at at_a
      cases at_a
      rcases fixed with line | unused
      · simp [Slot.IsVariable, Slot.isReservedName, line] at named
      · exact absurd unused named.1
    · exact at_a

/-- Wherever the machine gets, an instruction of the running process that does not end in a fault
changes nothing beyond its scope, whatever line it is decoded from. -/
theorem Passed.within_scope {ps : List Program} {m m' : Machine} {key : Int} {p : ControlBlock}
    {text : String} {goesOn : Bool} (h : Passed ps m) (known : m.scheduler.process? key = some p)
    (runs : p.state = .running)
    (done : Machine.execute key (.decode text) m = .ok goesOn m') :
    Scope key p (.decode text) m goesOn m' := by
  have sound := h.sound_of_running known runs
  have deed := sound.deed_of_execute known runs done
  obtain ⟨p', known', writes⟩ := deed.writes sound known runs
  exact {
    frame := deed.frame
    cores := deed.cores
    plain := deed.unmoved
    semaphore := fun r => deed.movedAt
    writes := ⟨p', known', writes⟩
    kept := fun a s => writes.kept
    bounds := fun k => deed.bounds
    files := deed.files
    file := fun path name written => by
      rw [written] at deed
      exact deed.file
    events := by
      obtain ⟨es, log, shows⟩ := deed.shows
      exact ⟨es, log, shows.output?, shows.isPrompt⟩
    inputs := deed.inputs
    result := deed.result sound known runs }

/-- The first process bound a variable, and then the second one, at the beginning of its turn, sets that
variable from a file. -/
theorem Passed.within_scope_foreign : ∃ m p,
    Passed [⟨["assign x 1", "print x"], 0⟩, ⟨["print x"], 0⟩] m ∧
    m.scheduler.process? 2 = some p ∧ p.state = .running ∧ m.memory.slot? 2 = some ⟨"x", "1"⟩ ∧
    ∃ goesOn m', Machine.execute 2 (.decode "readFile f x") m = .ok goesOn m' ∧
      Scope 2 p (.decode "readFile f x") m goesOn m' ∧ m'.memory.slot? 2 = some ⟨"x", "two"⟩ := by
  have made := Reachable.fresh 1 20 (by decide) (by decide)
  have one := made.after_createProcess ["assign x 1", "print x"] 0 (by decide) (by decide)
  have both := one.after_createProcess ["print x"] 0 (by decide) (by decide +kernel)
  have stored := both.step.outside ⟨[(["f"], .file (Text.encode "two words".toList))]⟩ []
  have passed : Passed _ _ := .within stored (k := 0) (by decide +kernel)
  obtain ⟨p, known⟩ := passed.layout.process?_of_under
    (show Program.under _ 2 = some ⟨["print x"], 0⟩ from rfl)
  have runs : p.state = .running := Option.some.inj
    ((congrArg (Option.map ControlBlock.state) known).symm.trans (by decide +kernel))
  refine ⟨_, p, passed, known, runs, by decide +kernel, ?_⟩
  exact (ok_after (by decide +kernel)).imp fun _ done =>
    ⟨_, done, passed.within_scope known runs done, by decide +kernel⟩

end RoundRobin
