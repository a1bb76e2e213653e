import RoundRobin.Machine.Run
import RoundRobin.Proofs.Layout
import RoundRobin.Proofs.Operation

/-!
# Scenes

What the programs see of the machine and show of themselves (`Machine.scene`): the memory, where
each process is in its program, and what was printed. Scheduling and counting leave the scene as it
is (`Still`). It is changed by the instructions that bind a variable, set one or print, and by going
on to the next instruction.
-/

namespace RoundRobin

open Operation

/-- What a program printed, with the key of its process. -/
def Event.output? : Event → Option (Int × String)
  | .output key text => some (key, text)
  | _ => none

/-- Where the processes are in their programs. -/
def Scheduler.places (s : Scheduler) : List ControlBlock := s.processes.map ControlBlock.place

/-- The memory, the places of the processes, and what was printed. -/
structure Scene where
  memory : Memory
  places : List ControlBlock
  outputs : List (Int × String)

namespace Machine

/-- What the programs printed, in order, with the keys of their processes. -/
def outputs (m : Machine) : List (Int × String) := m.log.toList.filterMap Event.output?

def scene (m : Machine) : Scene := ⟨m.memory, m.scheduler.places, m.outputs⟩

@[simp]
theorem outputs_record (m : Machine) (e : Event) :
    (m.record e).outputs = m.outputs ++ e.output?.toList := by
  unfold outputs record
  rw [Array.toList_push, List.filterMap_append]
  cases h : e.output? <;> simp [h]

@[simp]
theorem outputs_recordAll (m : Machine) (es : List Event) :
    (m.recordAll es).outputs = m.outputs ++ es.filterMap Event.output? := by
  unfold outputs recordAll
  rw [Array.toList_appendList, List.filterMap_append]

theorem outputs_recordAll_of_silent (m : Machine) {es : List Event}
    (silent : ∀ e ∈ es, e.output? = none) : (m.recordAll es).outputs = m.outputs := by
  rw [outputs_recordAll, List.filterMap_eq_nil_iff.2 silent, List.append_nil]

end Machine

namespace Scheduler

variable {s s' : Scheduler}

theorem places_amend (s : Scheduler) (key : Int) {f : ControlBlock → ControlBlock}
    (same : ∀ p, (f p).place = p.place) : (s.amend key f).places = s.places :=
  map_amend s key same

/-- Where the process under a key is can be read off the places. -/
theorem place_of_places (same : s'.places = s.places) {key : Int} {p' : ControlBlock}
    (known : s'.process? key = some p') :
    ∃ p, s.process? key = some p ∧ p'.place = p.place :=
  process?_of_map same known

end Scheduler

/-- An operation that leaves the scene as it is. -/
def Still {α : Type} (op : Operation α) : Prop := Keeps Machine.scene op

namespace Still

variable {α β : Type}

theorem bind {x : Operation α} {f : α → Operation β} (hx : Still x) (hf : ∀ a, Still (f a)) :
    Still (x >>= f) :=
  Keeps.bind hx hf

theorem emit {e : Event} (silent : e.output? = none) : Still (emit e) := by
  intro m
  show Scene.mk m.memory m.scheduler.places (m.record e).outputs = m.scene
  rw [Machine.outputs_record, silent, Option.toList_none, List.append_nil]
  rfl

theorem say (n : Notice) : Still (say n) := emit rfl

theorem modify_recordAll {es : List Event} (silent : ∀ e ∈ es, e.output? = none) :
    Still (modify fun m => m.recordAll es) := by
  intro m
  show Scene.mk m.memory m.scheduler.places (m.recordAll es).outputs = m.scene
  rw [m.outputs_recordAll_of_silent silent]
  rfl

theorem schedule {move : Scheduler → Except Fault α × Scheduler}
    (places : ∀ s, (move s).2.places = s.places) : Still (schedule move) := by
  intro m
  have same := places m.scheduler
  unfold after Operation.schedule
  cases result : move m.scheduler with
  | mk outcome s =>
    rw [result] at same
    cases outcome <;> exact congrArg (Scene.mk m.memory · m.outputs) same

theorem reschedule {move : Scheduler → Scheduler} (places : ∀ s, (move s).places = s.places) :
    Still (reschedule move) :=
  fun m => congrArg (Scene.mk m.memory · m.outputs) (places m.scheduler)

theorem amend (key : Int) {f : ControlBlock → ControlBlock} (same : ∀ p, (f p).place = p.place) :
    Still (amend key f) :=
  reschedule fun s => s.places_amend key same

theorem measure (f : Metrics → Metrics) : Still (Operation.measure f) := fun _ => rfl

theorem tick (n : Int) : Still (tick n) := fun _ => rfl

end Still

/-! ### What leaves the scene as it is -/

namespace Scheduler

theorem places_selectNext (s : Scheduler) : s.selectNext.2.places = s.places := by
  unfold selectNext
  split
  · rfl
  · dsimp only
    split
    · rfl
    · exact places_amend _ _ fun _ => rfl

theorem places_semWait (s : Scheduler) (r : Resource) (key : Int) :
    (s.semWait r key).2.places = s.places := by
  unfold semWait
  dsimp only
  split
  · rfl
  · exact places_amend s key fun _ => rfl

theorem places_semSignal (s : Scheduler) (r : Resource) : (s.semSignal r).2.places = s.places := by
  unfold semSignal
  dsimp only
  split
  · rfl
  · split
    · rfl
    · exact places_amend _ _ fun _ => rfl

end Scheduler

namespace Machine

theorem still_promote : Still promote := by
  refine .bind Keeps.get fun m => .bind ?_ fun promoted => ?_
  · exact .schedule fun s => s.map_promoteEach (fun _ => rfl) _ _
  · refine .modify_recordAll fun e he => ?_
    obtain ⟨pid, -, rfl⟩ := List.mem_map.1 he
    rfl

theorem still_dispatch : Still dispatch := by
  refine .bind (.schedule fun s => s.places_selectNext) fun selected => ?_
  cases selected with
  | none => exact Keeps.pure none
  | some key =>
    refine .bind Keeps.get fun m => .bind (.amend key fun _ => rfl) fun _ => ?_
    refine .bind (Keeps.pidOf key) fun pid => .bind (fun _ => rfl) fun _ => ?_
    exact .bind (.measure _) fun _ => .bind (.say _) fun _ => Keeps.pure _

theorem still_occupy : Still occupy := by
  refine .bind Keeps.get fun m => ?_
  split
  · refine .bind still_dispatch fun _ => ?_
    split
    · exact .bind (.bind Keeps.get fun _ => .say _) fun _ => .bind Keeps.get fun _ => .say _
    · exact Keeps.pure ()
  · exact Keeps.pure ()

theorem still_pause : Still pause := by
  refine .bind Keeps.get fun m => ?_
  split
  · exact Keeps.pure ()
  · split
    · exact Keeps.throw _
    · exact .emit rfl

theorem still_countInstruction (key : Int) : Still (countInstruction key) := by
  refine .bind (.tick _) fun _ => .bind (.amend key fun _ => rfl) fun _ => ?_
  exact .bind (.measure _) fun _ => still_pause

theorem still_semWait (key : Int) (r : Resource) : Still (semWait key r) := by
  refine .bind (.schedule fun s => s.places_semWait r key) fun acquired => ?_
  cases acquired
  · exact .bind (Keeps.pidOf key) fun _ => .bind (.say _) fun _ => Keeps.pure _
  · exact Keeps.pure _

theorem still_semSignal (r : Resource) : Still (semSignal r) := by
  refine .bind (.schedule fun s => s.places_semSignal r) fun woken => ?_
  cases woken
  · exact Keeps.pure ()
  · exact .bind (Keeps.pidOf _) fun _ => .say _

theorem still_complain (key : Int) (c : Complaint) : Still (complain key c) :=
  .bind (Keeps.pidOf key) fun _ => .say _

theorem still_terminate (key : Int) : Still (terminate key) := by
  refine .bind Keeps.get fun m => .bind (.amend key fun _ => rfl) fun _ => ?_
  refine .bind (.reschedule fun s => ?_) fun _ => .bind (Keeps.process key) fun p => ?_
  · exact Scheduler.places_amend _ key fun _ => rfl
  · refine .bind Keeps.get fun m => ?_
    dsimp only
    split
    · exact .bind (Keeps.throw _) fun _ => .say _
    · exact .bind (fun _ => rfl) fun _ => .say _

theorem still_leave (key : Int) : Still (leave key) := by
  refine .bind (fun _ => rfl) fun _ => .bind (Keeps.process key) fun p => ?_
  split
  · exact Keeps.pure ()
  · refine .bind Keeps.get fun m => ?_
    by_cases facing : m.memory.isInstruction p.pc
    · rw [if_pos facing]
      exact .reschedule fun s => Scheduler.places_amend _ key fun _ => rfl
    · rw [if_neg facing]
      exact still_terminate key

end Machine

end RoundRobin
