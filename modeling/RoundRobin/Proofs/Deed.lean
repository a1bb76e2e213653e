import RoundRobin.Proofs.Resumption

/-!
# What an instruction does

Everything that comes of executing an instruction, files, input and log included. One that does its
work has the effect that belongs to it; one that cannot has a grievance, which is all that shows of it
(`Grievance`, `Deed`). The instruction may be any, not only the one that the process faces
(`Sound.deed_of_execute`), and an instruction with a grievance always goes this way
(`Machine.execute_of_grievance`).
-/

namespace RoundRobin

open Operation

/-- The requests for input that an instruction makes. -/
def Instruction.questions (i : Instruction) : List Event := (i.prompt?.map Event.prompt).toList

/-- The machine after an instruction asked for the input that it needs and was answered; most need
none. -/
def Machine.asked (m : Machine) (i : Instruction) : Machine :=
  { m.recordAll i.questions with inputs := m.inputs.drop i.questions.length }

/-- The value that an assignment takes from its source. -/
inductive Valued (m : Machine) : Source → String → Prop where
  | literal {value : String} : Valued m (.literal value) value
  | line {path line : String} (read : m.storage.firstLine path = .ok line) :
    Valued m (.file path) line
  | answer {answer : String} {rest : List String} (given : m.inputs = answer :: rest) :
    Valued m .input (Text.trimmed answer)

/-- The bytes that a process writes for a name. -/
def Machine.bytesOf (m : Machine) (p : ControlBlock) (name : String) : Text.Bytes :=
  Text.encode (textOf m.memory p name).toList

/-- Why an instruction of a process cannot do its work. -/
inductive Grievance (p : ControlBlock) (m : Machine) : Instruction → Complaint → Prop where
  | reservedName {name value : String} {source : Source} (valued : Valued m source value)
    (reserved : Slot.isReservedName name) : Grievance p m (.assign name source) (.reservedName name)
  | noSpace {name value : String} {source : Source} (valued : Valued m source value)
    (allowed : Slot.isReservedName name = false) (full : 3 ≤ p.bound) :
    Grievance p m (.assign name source) (.noSpace name)
  | noLine {name path : String} {fault : FileFault} (failed : m.storage.firstLine path = .error fault)
    (reported : fault.isReported) : Grievance p m (.assign name (.file path)) (.file fault)
  | notFound {name : String} (absent : m.memory.find name = none) :
    Grievance p m (.print name) (.notFound name)
  | noFirst {first last : String} (bad : Machine.integerOf? m.memory first = none) :
    Grievance p m (.printFromTo first last) (.notInteger first)
  | noLast {first last : String} {low : Int} (good : Machine.integerOf? m.memory first = some low)
    (bad : Machine.integerOf? m.memory last = none) :
    Grievance p m (.printFromTo first last) (.notInteger last)
  | notWritten {path name : String} {fault : FileFault}
    (failed : m.storage.write path (m.bytesOf p name) = .error fault) (reported : fault.isReported) :
    Grievance p m (.writeFile path name) (.file fault)
  | reservedTarget {path name : String} (reserved : Slot.isReservedName name) :
    Grievance p m (.readFile path name) (.reservedName name)
  | notRead {path name : String} {fault : FileFault} (allowed : Slot.isReservedName name = false)
    (failed : m.storage.readText path = .error fault) (reported : fault.isReported) :
    Grievance p m (.readFile path name) (.file fault)
  | nothingToRead {path name : String} {text : List Char}
    (allowed : Slot.isReservedName name = false) (read : m.storage.readText path = .ok text)
    (blank : Text.words text = []) : Grievance p m (.readFile path name) (.nothingToRead path)

/-- What an instruction of the process under a key does when it is executed, whether the process may
go on, and the machine then. -/
inductive Deed (key : Int) (p : ControlBlock) (m : Machine) : Instruction → Bool → Machine → Prop where
  | acquire {r : Resource} (left : 0 < m.scheduler.permits r) : Deed key p m (.semWait r) true
      { m with scheduler := m.scheduler.withPermits r (m.scheduler.permits r - 1) }
  | block {r : Resource} {s : Scheduler} (used_up : ¬0 < m.scheduler.permits r)
    (moved : Transfer key .running (.blocked r) m.scheduler s) : Deed key p m (.semWait r) false
      (({ m with scheduler := s } : Machine).record (.notice (.blocked key r)))
  | release {r : Resource} (nobody : m.scheduler.queue (.blocked r) = []) :
    Deed key p m (.semSignal r) true { m with scheduler := m.scheduler.withPermits r 1 }
  | wake {r : Resource} {woken : Int} {rest : Queue} {s : Scheduler}
    (front : m.scheduler.queue (.blocked r) = woken :: rest)
    (moved : Transfer woken (.blocked r) .ready (m.scheduler.withPermits r 1) s) :
    Deed key p m (.semSignal r) true
      (({ m with scheduler := s } : Machine).record (.notice (.woken woken r)))
  | bind {name value : String} {source : Source} {memory : Memory} (valued : Valued m source value)
    (allowed : Slot.isReservedName name = false) (room : p.bound < 3)
    (written : m.memory.write? p.nextSlot ⟨name, value⟩ = .ok memory) :
    Deed key p m (.assign name source) true
      { m.asked (.assign name source) with
        memory, scheduler := m.scheduler.amend key fun p => { p with bound := p.bound + 1 } }
  | print {name value : String} (found : m.memory.find name = some value) :
    Deed key p m (.print name) true (m.record (.output key value))
  | range {first last : String} {low high : Int}
    (one : Machine.integerOf? m.memory first = some low)
    (other : Machine.integerOf? m.memory last = some high) :
    Deed key p m (.printFromTo first last) true (m.recordAll (Machine.rangeOutputs key low high))
  | write {path name : String} {storage : Storage}
    (written : m.storage.write path (m.bytesOf p name) = .ok storage) :
    Deed key p m (.writeFile path name) true { m with storage }
  | store {path name : String} {text word : List Char} {words : List (List Char)} {a : Int}
    {memory : Memory} (allowed : Slot.isReservedName name = false)
    (read : m.storage.readText path = .ok text) (split : Text.words text = word :: words)
    (found : m.memory.addressOf name = some a)
    (written : m.memory.write? a ⟨name, String.ofList word⟩ = .ok memory) :
    Deed key p m (.readFile path name) true { m with memory }
  | skip {path name : String} (absent : m.memory.addressOf name = none) :
    Deed key p m (.readFile path name) true m
  | pass {words : List String} : Deed key p m (.unknown words) true m
  | complain {i : Instruction} {c : Complaint} (grievance : Grievance p m i c) :
    Deed key p m i true ((m.asked i).record (.notice (.complaint key c)))

/-- What shows of an instruction of the process under a key that does not end in a fault, in order. -/
inductive Shows (key : Int) (p : ControlBlock) (m : Machine) : Instruction → List Event → Prop where
  | quiet {i : Instruction} : Shows key p m i i.questions
  | blocked {r : Resource} : Shows key p m (.semWait r) [.notice (.blocked key r)]
  | woken {r : Resource} {woken : Int} : Shows key p m (.semSignal r) [.notice (.woken woken r)]
  | print {name value : String} : Shows key p m (.print name) [.output key value]
  | range {first last : String} {low high : Int} :
    Shows key p m (.printFromTo first last) (Machine.rangeOutputs key low high)
  | complaint {i : Instruction} {c : Complaint} (grievance : Grievance p m i c) :
    Shows key p m i (i.questions ++ [.notice (.complaint key c)])

/-- Nothing is asked for but the input of an assignment. -/
theorem Instruction.questions_eq_nil {i : Instruction} (other : ∀ name, i ≠ .assign name .input) :
    i.questions = [] := by
  unfold questions prompt?
  split
  · exact absurd rfl (other _)
  · rfl

theorem Machine.asked_of_silent {i : Instruction} (silent : i.questions = []) (m : Machine) :
    m.asked i = m := by
  unfold asked
  rw [silent]
  exact m.recordAll_nil

/-- An assignment asks for its input, if it needs some, and then binds the value. -/
theorem Valued.assign_apply {m : Machine} {source : Source} {value : String}
    (v : Valued m source value) (key : Int) (name : String) : Machine.assign key name source m
      = Machine.bindName key name value (m.asked (.assign name source)) := by
  cases v with
  | literal => rw [Machine.assign, Machine.asked_of_silent rfl]
  | line read =>
    rw [Machine.assign, Machine.asked_of_silent rfl, bind_apply, get_apply]
    dsimp only
    rw [read]
  | @answer answer rest given =>
    have asked : m.asked (.assign name .input) =
        { m.record (.prompt ("Please enter a value for " ++ name ++ ": ")) with inputs := rest } := by
      unfold Machine.asked
      rw [given]
      simp [Machine.record, Machine.recordAll, Instruction.questions, Instruction.prompt?]
    rw [Machine.assign, bind_apply, ask_of_cons given, asked]

theorem Machine.log_asked (m : Machine) (i : Instruction) :
    (m.asked i).log.toList = m.log.toList ++ i.questions := Array.toList_appendList

/-- What an instruction does to the outside is added to the log. -/
theorem Deed.shows {key : Int} {p : ControlBlock} {i : Instruction} {m m' : Machine} {goesOn : Bool}
    (d : Deed key p m i goesOn m') :
    ∃ es, m'.log.toList = m.log.toList ++ es ∧ Shows key p m i es := by
  cases d with
  | acquire | release | write | store | skip | pass => exact ⟨[], (List.append_nil _).symm, .quiet⟩
  | block => exact ⟨_, Array.toList_push, .blocked⟩
  | wake => exact ⟨_, Array.toList_push, .woken⟩
  | bind => exact ⟨_, m.log_asked _, .quiet⟩
  | print => exact ⟨_, Array.toList_push, .print⟩
  | range => exact ⟨_, Array.toList_appendList, .range⟩
  | complain grievance =>
    exact ⟨_, Array.toList_push.trans (by rw [m.log_asked, List.append_assoc]), .complaint grievance⟩

namespace Machine

theorem fileFailed_of_reported {fault : FileFault} (reported : fault.isReported) (m : Machine)
    (key : Int) : fileFailed key fault m
      = .ok () (m.record (.notice (.complaint (m.scheduler.pidOf key) (.file fault)))) := by
  unfold fileFailed
  rw [if_pos reported, complain_apply]

end Machine

section

variable {ps : List Program} {m m' : Machine} {key : Int} {p : ControlBlock} {i : Instruction}

/-- An instruction with a grievance says so and does nothing else, and its process may go on. -/
theorem Machine.execute_of_grievance (known : m.scheduler.process? key = some p)
    (pid : m.scheduler.pidOf key = key) {c : Complaint} (g : Grievance p m i c) :
    execute key i m = .ok true ((m.asked i).record (.notice (.complaint key c))) := by
  have pid' : (m.asked i).scheduler.pidOf key = key := pid
  cases g with
  | @reservedName name value source valued reserved =>
    have run := bindName_of_reserved (m.asked (.assign name source)) key value reserved
    rw [pid'] at run
    simp only [execute, bind_apply, valued.assign_apply, run, pure_apply]
  | @noSpace name value source valued allowed full =>
    have run := bindName_of_full (m := m.asked (.assign name source)) value allowed known full
    rw [pid'] at run
    simp only [execute, bind_apply, valued.assign_apply, run, pure_apply]
  | noLine failed reported =>
    have run := fileFailed_of_reported reported m key
    rw [pid] at run
    rw [asked_of_silent rfl]
    simp only [execute, assign, bind_apply, get_apply, failed, run, pure_apply]
  | notFound absent =>
    rw [asked_of_silent rfl]
    simp only [execute, print, bind_apply, get_apply, absent, complain_apply,
      pid, pure_apply]
  | noFirst bad =>
    rw [asked_of_silent rfl]
    simp only [execute, printFromTo, bind_apply, get_apply, bad,
      complain_apply, pid, pure_apply]
  | noLast good bad =>
    rw [asked_of_silent rfl]
    simp only [execute, printFromTo, bind_apply, get_apply, good, bad,
      complain_apply, pid, pure_apply]
  | notWritten failed reported =>
    have run := fileFailed_of_reported reported m key
    rw [pid] at run
    rw [bytesOf] at failed
    rw [asked_of_silent rfl]
    simp only [execute, writeFile, bind_apply, process_apply known, get_apply, failed,
      run, pure_apply]
  | reservedTarget reserved =>
    rw [asked_of_silent rfl]
    simp only [execute, readFile, if_pos reserved, bind_apply, complain_apply,
      pid, pure_apply]
  | notRead allowed failed reported =>
    have run := fileFailed_of_reported reported m key
    rw [pid] at run
    rw [asked_of_silent rfl]
    simp only [execute, readFile, allowed, Bool.false_eq_true, if_false, bind_apply,
      get_apply, failed, run, pure_apply]
  | nothingToRead allowed read blank =>
    rw [asked_of_silent rfl]
    simp only [execute, readFile, allowed, Bool.false_eq_true, if_false, bind_apply,
      get_apply, read, blank, complain_apply, pid, pure_apply]

theorem Machine.deed_of_grievance (known : m.scheduler.process? key = some p)
    (pid : m.scheduler.pidOf key = key) {c : Complaint} (g : Grievance p m i c) {b : Bool}
    (result : execute key i m = .ok b m') : Deed key p m i b m' := by
  cases (execute_of_grievance known pid g).symm.trans result
  exact .complain g

/-- A value that was taken is bound, unless there is a grievance. -/
theorem Layout.deed_of_valued (h : Layout ps m) (known : m.scheduler.process? key = some p)
    (pid : m.scheduler.pidOf key = key) {name value : String} {source : Source}
    (valued : Valued m source value) {b : Bool}
    (result : Machine.execute key (.assign name source) m = .ok b m') :
    Deed key p m (.assign name source) b m' := by
  cases allowed : Slot.isReservedName name with
  | true => exact Machine.deed_of_grievance known pid (.reservedName valued allowed) result
  | false =>
    by_cases full : 3 ≤ p.bound
    · exact Machine.deed_of_grievance known pid (.noSpace valued allowed full) result
    · have room : p.bound < 3 := Int.not_le.1 full
      obtain ⟨P, -, placed⟩ := h.lookup known
      obtain ⟨memory', written⟩ :=
        Memory.write?_eq_ok_of_slot? (placed.holds.slot?_nextSlot room) ⟨name, value⟩
      have run := Machine.bindName_of_room (m := m.asked (.assign name source)) allowed known room written
      simp only [Machine.execute, bind_apply, valued.assign_apply, run, pure_apply] at result
      cases result
      exact .bind valued allowed room written

theorem Layout.deed_of_assign (h : Layout ps m) (known : m.scheduler.process? key = some p)
    (pid : m.scheduler.pidOf key = key) {name : String} {source : Source} {b : Bool}
    (result : Machine.execute key (.assign name source) m = .ok b m') :
    Deed key p m (.assign name source) b m' := by
  cases source with
  | literal value => exact h.deed_of_valued known pid .literal result
  | input =>
    cases given : m.inputs with
    | nil => simp [Machine.execute, Machine.assign, ask_of_nil given] at result
    | cons answer rest => exact h.deed_of_valued known pid (.answer given) result
  | file path =>
    cases read : m.storage.firstLine path with
    | ok line => exact h.deed_of_valued known pid (.line read) result
    | error fault =>
      cases reported : fault.isReported with
      | true => exact Machine.deed_of_grievance known pid (.noLine read reported) result
      | false =>
        simp [Machine.execute, Machine.assign, read, Machine.fileFailed, reported] at result

end

namespace Sound

variable {ps : List Program} {m m' : Machine} {key : Int} {p : ControlBlock} {i : Instruction}

theorem deed_of_grievance (h : Sound ps m) (known : m.scheduler.process? key = some p)
    {c : Complaint} (g : Grievance p m i c) {b : Bool} (result : Machine.execute key i m = .ok b m') :
    Deed key p m i b m' :=
  Machine.deed_of_grievance known (h.orderly.pidOf known) g result

theorem deed_of_semWait (h : Sound ps m) (known : m.scheduler.process? key = some p)
    (runs : p.state = .running) {r : Resource} {b : Bool}
    (result : Machine.execute key (.semWait r) m = .ok b m') : Deed key p m (.semWait r) b m' := by
  rw [Machine.execute] at result
  by_cases left : 0 < m.scheduler.permits r
  · cases (Machine.semWait_of_pos left key).symm.trans result
    exact .acquire left
  · obtain ⟨s, blocked, moved⟩ := h.semWait_of_not_pos known left
    have stands := h.orderly.station?_of_running known runs
    have pid := (h.orderly.transfer known stands (by simp) moved).pidOf (moved.process?_self known)
    rw [pid] at blocked
    cases blocked.symm.trans result
    exact .block left moved

theorem deed_of_semSignal (h : Sound ps m) {r : Resource} {b : Bool}
    (result : Machine.execute key (.semSignal r) m = .ok b m') :
    Deed key p m (.semSignal r) b m' := by
  rw [Machine.execute, bind_apply] at result
  cases front : m.scheduler.queue (.blocked r) with
  | nil =>
    rw [Machine.semSignal_of_nil front] at result
    cases result
    exact .release front
  | cons woken rest =>
    obtain ⟨s, run, moved⟩ := h.semSignal_of_cons front
    rw [run] at result
    cases result
    exact .wake front moved

theorem deed_of_printFromTo (h : Sound ps m) (known : m.scheduler.process? key = some p)
    {first last : String} {b : Bool}
    (result : Machine.execute key (.printFromTo first last) m = .ok b m') :
    Deed key p m (.printFromTo first last) b m' := by
  cases one : Machine.integerOf? m.memory first with
  | none => exact h.deed_of_grievance known (.noFirst one) result
  | some low =>
    cases other : Machine.integerOf? m.memory last with
    | none => exact h.deed_of_grievance known (.noLast one other) result
    | some high =>
      simp only [Machine.execute, Machine.printFromTo, bind_apply, get_apply, one, other, modify_apply,
        pure_apply] at result
      cases result
      exact .range one other

theorem deed_of_writeFile (h : Sound ps m) (known : m.scheduler.process? key = some p)
    {path name : String} {b : Bool}
    (result : Machine.execute key (.writeFile path name) m = .ok b m') :
    Deed key p m (.writeFile path name) b m' := by
  cases written : m.storage.write path (m.bytesOf p name) with
  | ok storage =>
    have stored := written
    rw [Machine.bytesOf] at written
    simp only [Machine.execute, Machine.writeFile, bind_apply, process_apply known, get_apply, written,
      set_apply, pure_apply] at result
    cases result
    exact .write stored
  | error fault =>
    cases reported : fault.isReported with
    | true => exact h.deed_of_grievance known (.notWritten written reported) result
    | false =>
      rw [Machine.bytesOf] at written
      simp [Machine.execute, Machine.writeFile, process_apply known, written, Machine.fileFailed,
        reported] at result

theorem deed_of_readFile (h : Sound ps m) (known : m.scheduler.process? key = some p)
    {path name : String} {b : Bool}
    (result : Machine.execute key (.readFile path name) m = .ok b m') :
    Deed key p m (.readFile path name) b m' := by
  cases allowed : Slot.isReservedName name with
  | true => exact h.deed_of_grievance known (.reservedTarget allowed) result
  | false =>
    cases read : m.storage.readText path with
    | error fault =>
      cases reported : fault.isReported with
      | true => exact h.deed_of_grievance known (.notRead allowed read reported) result
      | false =>
        simp [Machine.execute, Machine.readFile, allowed, read, Machine.fileFailed, reported] at result
    | ok text =>
      cases split : Text.words text with
      | nil => exact h.deed_of_grievance known (.nothingToRead allowed read split) result
      | cons word words =>
        simp only [Machine.execute, Machine.readFile, allowed, Bool.false_eq_true, if_false, bind_apply,
          get_apply, read, split] at result
        cases found : m.memory.addressOf name with
        | none =>
          rw [found] at result
          cases result
          exact .skip found
        | some a =>
          obtain ⟨memory, written⟩ :=
            Memory.write?_eq_ok_of_addressOf found ⟨name, String.ofList word⟩
          simp only [found, writeSlot, written, pure_apply] at result
          cases result
          exact .store allowed read split found written

/-- What an instruction of a running process does that does not end in a fault. -/
theorem deed_of_execute (h : Sound ps m) (known : m.scheduler.process? key = some p)
    (runs : p.state = .running) {b : Bool} (result : Machine.execute key i m = .ok b m') :
    Deed key p m i b m' := by
  cases i with
  | semWait r => exact h.deed_of_semWait known runs result
  | semSignal r => exact h.deed_of_semSignal result
  | assign name source => exact h.layout.deed_of_assign known (h.orderly.pidOf known) result
  | print name =>
    cases found : m.memory.find name with
    | none => exact h.deed_of_grievance known (.notFound found) result
    | some value =>
      simp only [Machine.execute, Machine.print, bind_apply, get_apply, found, emit_apply,
        pure_apply] at result
      cases result
      exact .print found
  | printFromTo first last => exact h.deed_of_printFromTo known result
  | writeFile path name => exact h.deed_of_writeFile known result
  | readFile path name => exact h.deed_of_readFile known result
  | unknown words =>
    cases result
    exact .pass

/-- So it is for the instruction that a process faces, whatever was announced before. -/
theorem deed_of_facing (h : Sound ps m) (facing : Facing m key p i) {told : List Event} {b : Bool}
    (result : Machine.execute key i (m.recordAll told) = .ok b m') :
    Deed key p (m.recordAll told) i b m' :=
  deed_of_execute (m := m.recordAll told) (h.of_inside rfl) facing.known facing.runs result

end Sound

end RoundRobin
