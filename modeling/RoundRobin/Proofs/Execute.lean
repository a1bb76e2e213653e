import RoundRobin.Proofs.Move
import RoundRobin.Proofs.Operation

/-!
# Executing an instruction

What comes of executing the instruction that the running process faces, one case per instruction.
It completes with its effect on memory and scheduler, it blocks the process, or it ends in a fault.
A fault comes before anything is done, so it leaves the inside of the machine as it was.
-/

namespace RoundRobin

open Operation

/-- An operation completes an instruction, or ends in a fault with nothing done. -/
def Completes (key : Int) (p : ControlBlock) (i : Instruction) (op : Operation Unit) (m : Machine) :
    Prop :=
  match op m with
  | .ok _ m' => ∃ memory s, Effect m.memory m.scheduler key p i memory s ∧
      m'.inside = ({ m with memory, scheduler := s } : Machine).inside
  | .error _ m' => m'.inside = m.inside

/-- What comes of executing an instruction: it completes, it blocks its process, or it ends in a
fault. -/
inductive Outcome (key : Int) (p : ControlBlock) (i : Instruction) (m : Machine) :
    EStateM.Result Fault Machine Bool → Prop where
  | completed {memory : Memory} {s : Scheduler} {m' : Machine}
    (effect : Effect m.memory m.scheduler key p i memory s)
    (same : m'.inside = ({ m with memory, scheduler := s } : Machine).inside) :
    Outcome key p i m (.ok true m')
  | blocked {r : Resource} {s : Scheduler} {m' : Machine} (waits : i = .semWait r)
    (used_up : ¬0 < m.scheduler.permits r)
    (moved : Transfer key .running (.blocked r) m.scheduler s)
    (same : m'.inside = ({ m with scheduler := s } : Machine).inside) :
    Outcome key p i m (.ok false m')
  | fault {fault : Fault} {m' : Machine} (same : m'.inside = m.inside) :
    Outcome key p i m (.error fault m')

/-- What comes of an instruction does not depend on the outside. -/
theorem Outcome.of_inside {key : Int} {p : ControlBlock} {i : Instruction} {m m' : Machine}
    {result : EStateM.Result Fault Machine Bool} (h : Outcome key p i m' result)
    (same : m'.inside = m.inside) : Outcome key p i m result := by
  have memory := Machine.memory_of_inside same
  have scheduler := Machine.scheduler_of_inside same
  cases h with
  | @completed memory' s _ effect inside =>
    rw [memory, scheduler] at effect
    exact .completed effect
      (inside.trans (congrArg (fun m : Machine => { m with memory := memory', scheduler := s }) same))
  | @blocked r s _ waits used_up moved inside =>
    rw [scheduler] at used_up moved
    exact .blocked waits used_up moved
      (inside.trans (congrArg (fun m : Machine => { m with scheduler := s }) same))
  | fault inside => exact .fault (inside.trans same)

namespace Completes

variable {key : Int} {p : ControlBlock} {i : Instruction} {op : Operation Unit} {m : Machine}

theorem of_ok {memory : Memory} {s : Scheduler} {m' : Machine} (run : op m = .ok () m')
    (effect : Effect m.memory m.scheduler key p i memory s)
    (same : m'.inside = ({ m with memory, scheduler := s } : Machine).inside) :
    Completes key p i op m := by
  unfold Completes
  rw [run]
  exact ⟨memory, s, effect, same⟩

/-- An instruction other than those of the semaphores may do nothing. -/
theorem of_quiet (plain : i.Plain) (quiet : Quiet op) :
    Completes key p i op m := by
  unfold Completes
  cases result : op m with
  | ok a m' => exact ⟨m.memory, m.scheduler, .nothing plain, quiet.inside_of_ok result⟩
  | error fault m' => exact quiet.inside_of_error result

theorem of_inside {m' : Machine} (same : m'.inside = m.inside) {x : Operation Unit}
    (h : Completes key p i op m') (run : x m = op m') : Completes key p i x m := by
  unfold Completes at h ⊢
  rw [run]
  cases result : op m' with
  | ok a m'' =>
    rw [result] at h
    obtain ⟨memory, s, effect, inside⟩ := h
    rw [Machine.memory_of_inside same, Machine.scheduler_of_inside same] at effect
    refine ⟨memory, s, effect, inside.trans ?_⟩
    exact congrArg (fun m : Machine => { m with memory, scheduler := s }) same
  | error fault m'' =>
    rw [result] at h
    exact Eq.trans h same

/-- Quiet work may come first. -/
theorem bind {α : Type} {x : Operation α} {f : α → Operation Unit} (quiet : Quiet x)
    (h : ∀ a m', m'.inside = m.inside → Completes key p i (f a) m') :
    Completes key p i (x >>= f) m := by
  rcases quiet.bind_cases (f := f) m with ⟨a, m', same, run⟩ | ⟨fault, m', same, run⟩
  · exact (h a m' same).of_inside same run
  · unfold Completes
    rw [run]
    exact same

/-- An operation that completes an instruction lets its process go on. -/
theorem outcome (h : Completes key p i op m) :
    Outcome key p i m ((do op; return true : Operation Bool) m) := by
  unfold Completes at h
  rw [bind_apply]
  cases result : op m with
  | ok a m' =>
    rw [result] at h
    obtain ⟨memory, s, effect, same⟩ := h
    exact .completed effect same
  | error fault m' =>
    rw [result] at h
    exact .fault h

end Completes

/-! ### One instruction at a time -/

namespace Machine

variable {m : Machine} {key : Int} {p : ControlBlock} {name value : String}

theorem bindName_of_reserved (m : Machine) (key : Int) (value : String)
    (reserved : Slot.isReservedName name) : bindName key name value m
      = .ok () (m.record (.notice (.complaint (m.scheduler.pidOf key) (.reservedName name)))) := by
  unfold bindName
  rw [if_pos reserved, complain_apply]

theorem bindName_of_full (value : String) (allowed : Slot.isReservedName name = false)
    (known : m.scheduler.process? key = some p) (full : 3 ≤ p.bound) : bindName key name value m
      = .ok () (m.record (.notice (.complaint (m.scheduler.pidOf key) (.noSpace name)))) := by
  have three : (Memory.reserved : Int) = 3 := rfl
  unfold bindName
  rw [if_neg (by simp [allowed]), bind_apply, process_apply known]
  dsimp only
  rw [three, if_pos full, complain_apply]

theorem bindName_of_room {memory : Memory} (allowed : Slot.isReservedName name = false)
    (known : m.scheduler.process? key = some p) (room : p.bound < 3)
    (written : m.memory.write? p.nextSlot ⟨name, value⟩ = .ok memory) : bindName key name value m
      = .ok () { m with
          memory, scheduler := m.scheduler.amend key fun p => { p with bound := p.bound + 1 } } := by
  have three : (Memory.reserved : Int) = 3 := rfl
  unfold bindName
  rw [if_neg (by simp [allowed]), bind_apply, process_apply known]
  dsimp only
  rw [three, if_neg (by omega), bind_apply]
  simp only [writeSlot, written, amend_apply]

theorem semWait_of_pos {r : Resource} (left : 0 < m.scheduler.permits r) (key : Int) :
    semWait key r m
      = .ok true { m with scheduler := m.scheduler.withPermits r (m.scheduler.permits r - 1) } := by
  unfold semWait
  rw [bind_apply, schedule_apply (by rw [Scheduler.semWait_of_pos left])]
  rfl

theorem semWait_of_refused {r : Resource} {key : Int} {s : Scheduler}
    (refused : m.scheduler.semWait r key = (false, s)) : semWait key r m
      = .ok false (({ m with scheduler := s } : Machine).record (.notice (.blocked (s.pidOf key) r))) := by
  unfold semWait
  rw [bind_apply, schedule_apply (by rw [refused])]
  rfl

theorem semSignal_of_nil {r : Resource} (nobody : m.scheduler.queue (.blocked r) = []) :
    semSignal r m = .ok () { m with scheduler := m.scheduler.withPermits r 1 } := by
  unfold semSignal
  rw [bind_apply, schedule_apply (Scheduler.semSignal_of_nil nobody)]
  rfl

end Machine

/-- Binding a name goes well, whether it binds the name or complains. -/
theorem Layout.bindName_effect {ps : List Program} {m : Machine} {key : Int} {p : ControlBlock}
    (h : Layout ps m) (known : m.scheduler.process? key = some p) (name value : String)
    (source : Source) : ∃ m' memory s, Machine.bindName key name value m = .ok () m' ∧
      Effect m.memory m.scheduler key p (.assign name source) memory s ∧
      m'.inside = ({ m with memory, scheduler := s } : Machine).inside := by
  have plain : (Instruction.assign name source).Plain := fun r => by simp
  cases allowed : Slot.isReservedName name with
  | true =>
    exact ⟨_, m.memory, m.scheduler, m.bindName_of_reserved key value allowed, .nothing plain, rfl⟩
  | false =>
    by_cases full : 3 ≤ p.bound
    · exact ⟨_, m.memory, m.scheduler, Machine.bindName_of_full value allowed known full,
        .nothing plain, rfl⟩
    · have room : p.bound < 3 := Int.not_le.1 full
      obtain ⟨P, hP, placed⟩ := h.lookup known
      have free := placed.holds.slot?_nextSlot room
      obtain ⟨memory, written⟩ := Memory.write?_eq_ok_of_slot? free ⟨name, value⟩
      exact ⟨_, memory, _, Machine.bindName_of_room allowed known room written,
        .bind allowed room written, rfl⟩

namespace Sound

variable {ps : List Program} {m : Machine} {key : Int} {p : ControlBlock}

theorem completes_bindName (h : Sound ps m) (known : m.scheduler.process? key = some p)
    (name value : String) (source : Source) :
    Completes key p (.assign name source) (Machine.bindName key name value) m := by
  obtain ⟨m', memory, s, run, effect, same⟩ := h.layout.bindName_effect known name value source
  exact .of_ok run effect same

theorem completes_assign (h : Sound ps m) (known : m.scheduler.process? key = some p)
    (name : String) (source : Source) :
    Completes key p (.assign name source) (Machine.assign key name source) m := by
  have kept : ∀ m' : Machine, m'.inside = m.inside → ∀ value,
      Completes key p (.assign name source) (Machine.bindName key name value) m' := by
    intro m' same value
    exact (h.of_inside same).completes_bindName
      (by rw [Machine.scheduler_of_inside same, known]) name value source
  cases source with
  | input => exact .bind (quiet_ask _) fun answer m' same => kept m' same _
  | literal value => exact kept m rfl value
  | file path =>
    refine .bind quiet_get fun m₀ m' same => ?_
    cases m₀.storage.firstLine path with
    | ok line => exact kept m' same line
    | error fault => exact .of_quiet (fun r => by simp) (Machine.quiet_fileFailed _ _)

theorem completes_readFile (m : Machine) (key : Int) (p : ControlBlock) (path name : String) :
    Completes key p (.readFile path name) (Machine.readFile key path name) m := by
  have plain : (Instruction.readFile path name).Plain := fun r => by simp
  unfold Machine.readFile
  by_cases reserved : Slot.isReservedName name
  · rw [if_pos reserved]
    exact .of_quiet plain (Machine.quiet_complain _ _)
  · rw [if_neg reserved]
    unfold Completes
    rw [bind_apply, get_apply]
    dsimp only
    cases m.storage.readText path with
    | error fault => exact Completes.of_quiet plain (Machine.quiet_fileFailed _ _)
    | ok text =>
      dsimp only
      cases Text.words text with
      | nil => exact Completes.of_quiet plain (Machine.quiet_complain _ _)
      | cons word words =>
        dsimp only
        cases found : m.memory.addressOf name with
        | none => exact Completes.of_quiet plain (quiet_pure ())
        | some a =>
          obtain ⟨memory, written⟩ :=
            Memory.write?_eq_ok_of_addressOf found ⟨name, String.ofList word⟩
          simp only [writeSlot, written]
          exact ⟨memory, m.scheduler, .store (by simpa using reserved) found written, rfl⟩

/-- A signal wakes the process that waits at the front of the queue. -/
theorem semSignal_of_cons (h : Sound ps m) {r : Resource} {woken : Int} {rest : Queue}
    (front : m.scheduler.queue (.blocked r) = woken :: rest) :
    ∃ s, Machine.semSignal r m
        = .ok () (({ m with scheduler := s } : Machine).record (.notice (.woken woken r))) ∧
      Transfer woken (.blocked r) .ready (m.scheduler.withPermits r 1) s := by
  have waits : woken ∈ m.scheduler.queue (.blocked r) := by rw [front]; exact List.mem_cons_self
  obtain ⟨q, hq, stands⟩ := h.orderly.process?_of_mem waits
  obtain ⟨s, run, moved⟩ := Scheduler.transfer_semSignal front hq
  have orderly := (h.orderly.withPermits r 1).transfer hq stands (by simp) moved
  have pid := orderly.pidOf (moved.process?_self hq)
  refine ⟨s, ?_, moved⟩
  unfold Machine.semSignal
  rw [bind_apply, schedule_apply run]
  simp only [bind_apply, pidOf_apply, say_apply, pid]

/-- A signal goes well. -/
theorem semSignal_effect (h : Sound ps m) (key : Int) (p : ControlBlock) (r : Resource) :
    ∃ m' memory s, Machine.semSignal r m = .ok () m' ∧
      Effect m.memory m.scheduler key p (.semSignal r) memory s ∧
      m'.inside = ({ m with memory, scheduler := s } : Machine).inside := by
  cases front : m.scheduler.queue (.blocked r) with
  | nil => exact ⟨_, m.memory, _, Machine.semSignal_of_nil front, .release front, rfl⟩
  | cons woken rest =>
    obtain ⟨s, run, moved⟩ := h.semSignal_of_cons front
    exact ⟨_, m.memory, s, run, .wake front moved, rfl⟩

theorem completes_semSignal (h : Sound ps m) (r : Resource) :
    Completes key p (.semSignal r) (Machine.semSignal r) m := by
  obtain ⟨m', memory, s, run, effect, same⟩ := h.semSignal_effect key p r
  exact .of_ok run effect same

/-- A process waits for a resource of which no permit is left. -/
theorem semWait_of_not_pos (h : Sound ps m) (known : m.scheduler.process? key = some p) {r : Resource}
    (used_up : ¬0 < m.scheduler.permits r) :
    ∃ s, Machine.semWait key r m = .ok false
        (({ m with scheduler := s } : Machine).record (.notice (.blocked (s.pidOf key) r))) ∧
      Transfer key .running (.blocked r) m.scheduler s := by
  obtain ⟨s, result, moved⟩ := h.orderly.transfer_semWait used_up known
  exact ⟨s, Machine.semWait_of_refused result, moved⟩

theorem outcome_semWait (h : Sound ps m) (known : m.scheduler.process? key = some p)
    (r : Resource) : Outcome key p (.semWait r) m (Machine.semWait key r m) := by
  by_cases left : 0 < m.scheduler.permits r
  · rw [Machine.semWait_of_pos left]
    exact .completed (.acquire left) rfl
  · obtain ⟨s, result, moved⟩ := h.semWait_of_not_pos known left
    rw [result]
    exact .blocked rfl left moved rfl

/-- What comes of executing the instruction that the running process faces. -/
theorem outcome_execute (h : Sound ps m) {i : Instruction} (facing : Facing m key p i) :
    Outcome key p i m (Machine.execute key i m) := by
  have known := facing.known
  cases i with
  | semWait r => exact h.outcome_semWait known r
  | semSignal r => exact (h.completes_semSignal r).outcome
  | assign name source => exact (h.completes_assign known name source).outcome
  | print name => exact (Completes.of_quiet (fun r => by simp) (Machine.quiet_print _ _)).outcome
  | printFromTo =>
    exact (Completes.of_quiet (fun r => by simp) (Machine.quiet_printFromTo _ _ _)).outcome
  | writeFile =>
    exact (Completes.of_quiet (fun r => by simp) (Machine.quiet_writeFile _ _ _)).outcome
  | readFile path name => exact (completes_readFile m key p path name).outcome
  | unknown words => exact .completed (.nothing fun r => by simp) rfl

/-- An instruction that was executed has left the pause after it as it is. -/
theorem rests_execute (h : Sound ps m) {i : Instruction} (facing : Facing m key p i) {running : Bool}
    {m₁ : Machine} (result : Machine.execute key i m = .ok running m₁) : m₁.Rests ↔ m.Rests := by
  have outcome := h.outcome_execute facing
  rw [result] at outcome
  cases outcome with
  | completed effect same =>
    have kept := Machine.rests_of_inside same
    exact kept
  | blocked waits used_up moved same =>
    have kept := Machine.rests_of_inside same
    exact kept

end Sound

end RoundRobin
