import RoundRobin.Proofs.Scope

/-!
# Mishaps

An instruction that cannot do its work is consumed and does nothing. What shows of it is one line that
begins as a warning or an error (`Event.isAlarm`), after the request for input if it made one, and all
else is as it was (`Consumed`). In a turn it is counted and left behind like any instruction that
completes, and the process goes on with the next one (`Machine.runInstructions_of_grievance`). An
instruction of which such a line shows is always of this sort (`Shows.grievance`), while one that ends
in a fault shows none (`Refusal.log`). What programs print is no such line, whatever it says.
-/

namespace RoundRobin

open Operation

namespace Event

/-- Whether an event is a line on the console that begins as a warning or an error. -/
def isAlarm : Event → Bool
  | .notice n => "[WARN]".toList.isPrefixOf n.text.toList || "[ERROR]".toList.isPrefixOf n.text.toList
  | _ => false

/-- Every complaint begins as a warning or an error. -/
theorem isAlarm_complaint (pid : Int) (c : Complaint) : isAlarm (.notice (.complaint pid c)) := by
  have severity : c.severity = "[WARN]" ∨ c.severity = "[ERROR]" := by
    cases c <;> simp [Complaint.severity]
  unfold isAlarm Notice.text
  simp only [String.toList_append, List.append_assoc, Bool.or_eq_true, List.isPrefixOf_iff_prefix]
  rcases severity with warning | error
  · rw [warning]
    exact .inl (List.prefix_append _ _)
  · rw [error]
    exact .inr (List.prefix_append _ _)

theorem not_isAlarm_executing (now pid pc : Int) (line : String) :
    isAlarm (.notice (.executing now pid pc line)) = false := by
  unfold isAlarm Notice.text
  simp only [String.toList_append, List.append_assoc]
  rfl

theorem not_isAlarm_blocked (pid : Int) (r : Resource) :
    isAlarm (.notice (.blocked pid r)) = false := by
  unfold isAlarm Notice.text
  simp only [String.toList_append, List.append_assoc]
  rfl

theorem not_isAlarm_woken (pid : Int) (r : Resource) : isAlarm (.notice (.woken pid r)) = false := by
  unfold isAlarm Notice.text
  simp only [String.toList_append, List.append_assoc]
  rfl

end Event

theorem Instruction.not_isAlarm_of_mem_questions {i : Instruction} {e : Event}
    (he : e ∈ i.questions) : e.isAlarm = false := by
  obtain ⟨message, rfl⟩ := exists_of_mem_questions he
  rfl

/-- A line that begins as a warning or an error is a complaint. -/
theorem Shows.grievance {key : Int} {p : ControlBlock} {i : Instruction} {m : Machine}
    {es : List Event} (h : Shows key p m i es) (alarm : ∃ e ∈ es, e.isAlarm) :
    ∃ c, Grievance p m i c ∧ es = i.questions ++ [.notice (.complaint key c)] := by
  obtain ⟨e, he, alarmed⟩ := alarm
  have absurd_of : e.isAlarm = false → ∃ c, Grievance p m i c ∧
      es = i.questions ++ [.notice (.complaint key c)] :=
    fun silent => absurd (silent.symm.trans alarmed) nofun
  cases h with
  | quiet => exact absurd_of (Instruction.not_isAlarm_of_mem_questions he)
  | blocked =>
    rw [List.mem_singleton.1 he] at absurd_of
    exact absurd_of (Event.not_isAlarm_blocked _ _)
  | woken =>
    rw [List.mem_singleton.1 he] at absurd_of
    exact absurd_of (Event.not_isAlarm_woken _ _)
  | print =>
    rw [List.mem_singleton.1 he] at absurd_of
    exact absurd_of rfl
  | range =>
    obtain ⟨n, -, rfl⟩ := List.mem_map.1 he
    exact absurd_of rfl
  | complaint grievance => exact ⟨_, grievance, rfl⟩

/-- What shows of a refused instruction is at most its request for input. -/
theorem Refusal.log {m m' : Machine} {i : Instruction} {fault : Fault} (r : Refusal m i fault m') :
    ∃ es, m'.log.toList = m.log.toList ++ es ∧ ∀ e ∈ es, e.isAlarm = false := by
  cases r with
  | input => exact ⟨[_], Array.toList_push, by simp [Event.isAlarm]⟩
  | path => exact ⟨[], (List.append_nil _).symm, nofun⟩

/-! ### Grievances in a turn -/

/-- A grievance does not depend on the log. -/
theorem Grievance.of_log {p : ControlBlock} {m : Machine} {i : Instruction} {c : Complaint}
    (g : Grievance p m i c) (log : Array Event) : Grievance p { m with log } i c := by
  have valued : ∀ {source value}, Valued m source value → Valued { m with log } source value := by
    intro source value v
    cases v with
    | literal => exact .literal
    | line read => exact .line read
    | answer given => exact .answer given
  cases g with
  | reservedName v reserved => exact .reservedName (valued v) reserved
  | noSpace v allowed full => exact .noSpace (valued v) allowed full
  | noLine failed reported => exact .noLine failed reported
  | notFound absent => exact .notFound absent
  | noFirst bad => exact .noFirst bad
  | noLast good bad => exact .noLast good bad
  | notWritten failed reported => exact .notWritten failed reported
  | reservedTarget reserved => exact .reservedTarget reserved
  | notRead allowed failed reported => exact .notRead allowed failed reported
  | nothingToRead allowed read blank => exact .nothingToRead allowed read blank

/-- An answer was there if one was needed. -/
theorem Grievance.answered {p : ControlBlock} {m : Machine} {i : Instruction} {c : Complaint}
    (g : Grievance p m i c) : i.questions.length ≤ m.inputs.length := by
  have of_valued : ∀ {source value name}, Valued m source value →
      (Instruction.assign name source).questions.length ≤ m.inputs.length := by
    intro source value name v
    cases v with
    | literal | line => exact Nat.zero_le _
    | answer given => simp [given, Instruction.questions, Instruction.prompt?]
  cases g with
  | reservedName v | noSpace v => exact of_valued v
  | _ => exact Nat.zero_le _

namespace Machine

/-- The announcement of a line that a process is about to execute, if instructions are shown. -/
def announcement (m : Machine) (p : ControlBlock) (line : String) : List Event :=
  if m.verbose then [.notice (.executing m.now p.pid p.pc line)] else []

theorem not_isAlarm_of_mem_announcement {m : Machine} {p : ControlBlock} {line : String} {e : Event}
    (he : e ∈ m.announcement p line) : e.isAlarm = false := by
  unfold announcement at he
  split at he
  · rw [List.mem_singleton.1 he]
    exact Event.not_isAlarm_executing _ _ _ _
  · cases he

/-- The pause after an instruction, if there is one. -/
def pauseAfter (m : Machine) : List Event := if m.delay.isZero then [] else [.pause m.delay]

theorem not_isAlarm_of_mem_pauseAfter {m : Machine} {e : Event} (he : e ∈ m.pauseAfter) :
    e.isAlarm = false := by
  unfold pauseAfter at he
  split at he
  · cases he
  · rw [List.mem_singleton.1 he]
    rfl

/-- The machine after the tick of an instruction that a process executed: it was counted, and left behind
if the process goes on. -/
def ticked (m : Machine) (key : Int) (goesOn : Bool) : Machine :=
  (if goesOn then (m.charge key).change key ControlBlock.advance else m.charge key).recordAll
    m.pauseAfter

/-- The machine after an instruction of a process was consumed: it was counted and left behind, and
nothing else was done but to the outside. -/
def consumed (m : Machine) (key : Int) (shown : List Event) (used : Nat) : Machine :=
  { (m.charge key).change key ControlBlock.advance with
    log := m.log ++ shown, inputs := m.inputs.drop used }

/-- The machine after an instruction of a process was executed, but the pause after it was refused: it was
counted, and nothing else was done but to the outside. -/
def hindered (m : Machine) (key : Int) (shown : List Event) (used : Nat) : Machine :=
  { m.charge key with log := m.log ++ shown, inputs := m.inputs.drop used }

theorem ticked_eq_consumed (m : Machine) (key : Int) (shown : List Event) (used : Nat) :
    ({ m with log := m.log ++ shown, inputs := m.inputs.drop used } : Machine).ticked key true
      = m.consumed key (shown ++ m.pauseAfter) used := by
  have log : m.log ++ shown ++ m.pauseAfter = m.log ++ (shown ++ m.pauseAfter) :=
    Array.toList_inj.1 (by simp)
  rw [consumed, ← log]
  rfl

/-- An instruction that was executed is counted, and left behind if its process goes on. -/
theorem perform_of_done {m m' : Machine} {key : Int} {i : Instruction} {goesOn : Bool}
    (done : execute key i m = .ok goesOn m') (rests : m'.Rests) :
    perform key i m = .ok goesOn (m'.ticked key goesOn) := by
  unfold perform ticked pauseAfter
  simp only [bind_apply, done, countInstruction_eq rests key]
  by_cases zero : m'.delay.isZero
  · rw [if_pos zero, if_pos zero, recordAll_nil]
    cases goesOn <;> rfl
  · rw [if_neg zero, if_neg zero]
    cases goesOn <;> simp [record, recordAll, charge, change]

section

variable {m : Machine} {key : Int} {p : ControlBlock} {i : Instruction} {slot : Slot}
  {es : List Event} {used : Nat} (known : m.scheduler.process? key = some p)
  (at_pc : m.memory.instructionSlot? p.pc = some (slot, i))
  (done : execute key i (m.recordAll (m.announcement p slot.value)) = .ok true { m with
    log := m.log ++ (m.announcement p slot.value ++ es), inputs := m.inputs.drop used })

include known at_pc done

/-- An instruction in a turn that does nothing but what shows of it and the use of input is consumed, and
the turn goes on. -/
theorem runInstructions_of_shown (rests : m.Rests) (n : Nat) :
    runInstructions key (n + 1) m = runInstructions key n
      (m.consumed key (m.announcement p slot.value ++ es ++ m.pauseAfter) used) := by
  have shown : m.announced p slot.value = m.recordAll (m.announcement p slot.value) :=
    m.announced_eq p slot.value
  rw [runInstructions_next known at_pc, bind_apply, shown, perform_of_done done rests]
  dsimp only
  rw [if_pos rfl]
  exact congrArg (runInstructions key n) (m.ticked_eq_consumed key _ used)

/-- If the pause after it is refused, it is counted, and the turn is over. -/
theorem runInstructions_of_refused (refused : ¬m.Rests) : ∃ fault, fault.isPause ∧
    ∀ n, runInstructions key (n + 1) m
      = .error fault (m.hindered key (m.announcement p slot.value ++ es) used) := by
  have shown : m.announced p slot.value = m.recordAll (m.announcement p slot.value) :=
    m.announced_eq p slot.value
  obtain ⟨fault, pauses, counted⟩ := countInstruction_of_refused (m := { m with
    log := m.log ++ (m.announcement p slot.value ++ es), inputs := m.inputs.drop used }) refused key
  refine ⟨fault, pauses, fun n => ?_⟩
  rw [runInstructions_next known at_pc, bind_apply, shown, perform, bind_apply, done]
  dsimp only
  rw [bind_apply, counted]
  rfl

end

section

variable {m : Machine} {key : Int} {p : ControlBlock} {i : Instruction} {c : Complaint} {slot : Slot}
  (known : m.scheduler.process? key = some p) (pid : m.scheduler.pidOf key = key)
  (at_pc : m.memory.instructionSlot? p.pc = some (slot, i)) (g : Grievance p m i c)

include known pid g

/-- Whatever was announced before, an instruction with a grievance does nothing but what shows of it and
the use of input. -/
theorem execute_of_grievance_after (told : List Event) :
    execute key i (m.recordAll told) = .ok true { m with
      log := m.log ++ (told ++ (i.questions ++ [.notice (.complaint key c)]))
      inputs := m.inputs.drop i.questions.length } := by
  have done := execute_of_grievance (m := m.recordAll told) known pid (g.of_log (m.log ++ told))
  have log : (m.log ++ told ++ i.questions).push (.notice (.complaint key c))
      = m.log ++ (told ++ (i.questions ++ [.notice (.complaint key c)])) :=
    Array.toList_inj.1 (by simp)
  exact done.trans (congrArg (fun log => EStateM.Result.ok true
    { m with log, inputs := m.inputs.drop i.questions.length }) log)

include at_pc

/-- An instruction with a grievance in a turn is consumed, and the turn goes on. -/
theorem runInstructions_of_grievance (rests : m.Rests) (n : Nat) :
    runInstructions key (n + 1) m = runInstructions key n (m.consumed key
      (m.announcement p slot.value ++ (i.questions ++ [.notice (.complaint key c)]) ++ m.pauseAfter)
      i.questions.length) :=
  runInstructions_of_shown known at_pc (execute_of_grievance_after known pid g _) rests n

end

end Machine

/-! ### What an alarm tells -/

/-- An instruction of the process under a key was consumed, and what is given shows of it. -/
structure Consumed (key : Int) (p : ControlBlock) (i : Instruction) (m : Machine) (es : List Event) :
    Prop where
  /-- One line tells why, after the request for input if there was one. -/
  shown : ∃ c, Grievance p m i c ∧ es = i.questions ++ [.notice (.complaint key c)]
  alarms : (es.filter Event.isAlarm).length = 1
  silent : ∀ e ∈ es, e.output? = none
  /-- Only an input that was answered is gone. -/
  answered : i.questions.length ≤ m.inputs.length
  done : Machine.execute key i m
    = .ok true { m with log := m.log ++ es, inputs := m.inputs.drop i.questions.length }
  /-- If it is the instruction that the process faces, then the turn goes on with the next one. -/
  goes_on : m.Rests → ∀ slot, m.memory.instructionSlot? p.pc = some (slot, i) →
    ∃ shown, (∀ n, Machine.runInstructions key (n + 1) m
        = Machine.runInstructions key n (m.consumed key shown i.questions.length)) ∧
      (∃ told paused, shown = told ++ es ++ paused ∧ ∀ e ∈ told ++ paused, e.isAlarm = false) ∧
      (m.consumed key shown i.questions.length).scheduler.process? key
        = some { p with executed := p.executed + 1, pc := p.pc + 1 }
  /-- If the pause after it is refused, the turn ends with it, as with any other instruction. -/
  refused : ¬m.Rests → ∀ slot, m.memory.instructionSlot? p.pc = some (slot, i) →
    ∃ fault, fault.isPause ∧ ∀ n, Machine.runInstructions key (n + 1) m
      = .error fault (m.hindered key (m.announcement p slot.value ++ es) i.questions.length)

theorem Sound.consumed {ps : List Program} {m : Machine} {key : Int} {p : ControlBlock}
    {i : Instruction} {c : Complaint} (h : Sound ps m) (known : m.scheduler.process? key = some p)
    (g : Grievance p m i c) : Consumed key p i m (i.questions ++ [.notice (.complaint key c)]) where
  shown := ⟨c, g, rfl⟩
  alarms := by
    have quiet : i.questions.filter Event.isAlarm = [] := List.filter_eq_nil_iff.2 fun e he => by
      simp [Instruction.not_isAlarm_of_mem_questions he]
    rw [List.filter_append, quiet]
    simp [Event.isAlarm_complaint]
  silent := by
    intro e he
    rcases List.mem_append.1 he with he | he
    · obtain ⟨message, rfl⟩ := i.exists_of_mem_questions he
      rfl
    · rw [List.mem_singleton.1 he]
      rfl
  answered := g.answered
  done := by
    have done := Machine.execute_of_grievance_after known (h.orderly.pidOf known) g []
    rwa [m.recordAll_nil, List.nil_append] at done
  refused := fun refused slot at_pc => Machine.runInstructions_of_refused known at_pc
    (Machine.execute_of_grievance_after known (h.orderly.pidOf known) g _) refused
  goes_on := by
    intro rests slot at_pc
    refine ⟨_, Machine.runInstructions_of_grievance known (h.orderly.pidOf known) at_pc g rests,
      ⟨m.announcement p slot.value, m.pauseAfter, rfl, fun e he => ?_⟩, ?_⟩
    · rcases List.mem_append.1 he with he | he
      · exact Machine.not_isAlarm_of_mem_announcement he
      · exact Machine.not_isAlarm_of_mem_pauseAfter he
    · have counted := Scheduler.process?_amend_self known ControlBlock.counted
      obtain ⟨P, -, placed⟩ := (h.charge key).layout.lookup counted
      have standing : P.next? p.counted = some i := by
        rw [← placed.holds.instructionSlot?_pc]
        exact congrArg (Option.map Prod.snd) at_pc
      exact (Scheduler.process?_amend_self counted ControlBlock.advance).trans
        (congrArg some (placed.holds.advance_eq standing))

/-- Warnings and errors show of an instruction exactly if it cannot do its work, and then it is consumed
and has changed nothing, in memory, in files, in the queues or in any process. -/
theorem Passed.consumes_mishap {ps : List Program} {m : Machine} {key : Int} {p : ControlBlock}
    (h : Passed ps m) (known : m.scheduler.process? key = some p) (runs : p.state = .running)
    (text : String) :
    ∃ es, (after (Machine.execute key (.decode text)) m).log.toList = m.log.toList ++ es ∧
      ((∃ e ∈ es, e.isAlarm) ↔ ∃ c, Grievance p m (.decode text) c) ∧
      ((∃ e ∈ es, e.isAlarm) → Consumed key p (.decode text) m es) := by
  have sound := h.sound_of_running known runs
  have pid := h.pidOf known
  cases result : Machine.execute key (.decode text) m with
  | error fault m' =>
    obtain ⟨es, log, quiet⟩ := (sound.refuses_execute known (.decode text) fault m' result).log
    have no_alarm : ¬∃ e ∈ es, e.isAlarm := fun ⟨e, he, alarm⟩ =>
      Bool.false_ne_true ((quiet e he).symm.trans alarm)
    have no_grievance : ¬∃ c, Grievance p m (.decode text) c := fun ⟨c, g⟩ =>
      nomatch result.symm.trans (Machine.execute_of_grievance known pid g)
    rw [after_of_error result]
    exact ⟨es, log, iff_of_false no_alarm no_grievance, fun alarm => absurd alarm no_alarm⟩
  | ok goesOn m' =>
    obtain ⟨es, log, shows⟩ := (sound.deed_of_execute known runs result).shows
    rw [after_of_ok result]
    refine ⟨es, log, ⟨fun alarm => ?_, fun ⟨c, g⟩ => ?_⟩, fun alarm => ?_⟩
    · obtain ⟨c, g, -⟩ := shows.grievance alarm
      exact ⟨c, g⟩
    · cases result.symm.trans (Machine.execute_of_grievance known pid g)
      have same : es = (Instruction.decode text).questions ++ [.notice (.complaint key c)] := by
        have told := log.symm.trans (Array.toList_push.trans (congrArg (· ++ _) (m.log_asked _)))
        rw [List.append_assoc] at told
        exact List.append_cancel_left told
      exact ⟨_, same ▸ List.mem_append_right _ (List.mem_singleton_self _),
        Event.isAlarm_complaint _ _⟩
    · obtain ⟨c, g, rfl⟩ := shows.grievance alarm
      exact sound.consumed known g

/-- A process asks for the value of a variable that must not have its name. The answer is gone, the
process is told, and it goes on to the next line. -/
theorem Passed.consumes_mishap_reserved : ∃ m p es shown,
    Passed [⟨["assign Free input", "print x"], 0⟩] m ∧ m.inputs = ["7"] ∧
    m.scheduler.process? 1 = some p ∧ p.state = .running ∧ (∃ e ∈ es, e.isAlarm) ∧
    Consumed 1 p (.decode "assign Free input") m es ∧
    ∀ n, Machine.runInstructions 1 (n + 1) m
      = Machine.runInstructions 1 n (m.consumed 1 shown 1) := by
  have made := Reachable.fresh 2 20 (by decide) (by decide)
  have loaded := made.after_createProcess ["assign Free input", "print x"] 0 (by decide) (by decide)
  have passed : Passed _ _ := .within (loaded.outside {} ["7"]) (k := 0) (by decide +kernel)
  obtain ⟨p, known⟩ := passed.layout.process?_of_under
    (show Program.under _ 1 = some ⟨["assign Free input", "print x"], 0⟩ from rfl)
  have runs : p.state = .running := Option.some.inj
    ((congrArg (Option.map ControlBlock.state) known).symm.trans (by decide +kernel))
  have pc : p.pc = 0 := Option.some.inj
    ((congrArg (Option.map ControlBlock.pc) known).symm.trans (by decide +kernel))
  obtain ⟨es, log, -, mishap⟩ := passed.consumes_mishap known runs "assign Free input"
  have alarm : ∃ e ∈ es, e.isAlarm := by
    have added : es = _ := (List.drop_left.symm.trans (congrArg (List.drop _) log.symm) :)
    rw [added]
    decide +kernel
  have done := mishap alarm
  obtain ⟨shown, goes_on, -⟩ := done.goes_on (by decide +kernel) ⟨"Instruction", "assign Free input"⟩ (by
    rw [pc]
    decide +kernel)
  exact ⟨_, p, es, shown, passed, rfl, known, runs, alarm, done, goes_on⟩

end RoundRobin
