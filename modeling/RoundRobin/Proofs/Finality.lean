import RoundRobin.Proofs.Horizon
import RoundRobin.Proofs.Requests

/-!
# Ends of programs

A process is terminated only when no line is ahead of it, and it waits in a queue with no line ahead
only if its program has none (`Punctual`). Between requests the process on the processor faces an
instruction, also after a fault (`Reachable.poised`). So between requests a process is at the end of
its program exactly if it is terminated or its program has no lines (`Reachable.at_end_iff`).
-/

namespace RoundRobin

open Operation

/-- What is true of a process at the end of its program, by its state. -/
structure OnTime (ps : List Program) (key : Int) (p : ControlBlock) : Prop where
  terminated : p.state = .terminated → Program.ahead ps p.position = []
  waiting : p.state ≠ .terminated → p.state ≠ .running → Program.ahead ps p.position = [] →
    Program.code ps key = []

/-- No process is terminated too early or waits too long. -/
def Punctual (ps : List Program) (s : Scheduler) : Prop :=
  ∀ key p, s.process? key = some p → OnTime ps key p

namespace OnTime

variable {ps : List Program} {key : Int} {p p' : ControlBlock}

theorem of_running (runs : p.state = .running) : OnTime ps key p := by
  refine ⟨fun terminated => ?_, fun _ other => absurd runs other⟩
  rw [runs] at terminated
  cases terminated

theorem of_waiting (other : p.state ≠ .terminated)
    (waiting : Program.ahead ps p.position = [] → Program.code ps key = []) : OnTime ps key p :=
  ⟨fun terminated => absurd terminated other, fun _ _ => waiting⟩

theorem of_same (h : OnTime ps key p) (state : p'.state = p.state)
    (position : p'.position = p.position) : OnTime ps key p' := by
  refine ⟨?_, ?_⟩
  · rw [state, position]
    exact h.terminated
  · rw [state, position]
    exact h.waiting

/-- What is loaded besides does not matter. -/
theorem of_code (h : OnTime ps key p) {qs : List Program} (own : p.position.1 = key)
    (same : Program.code qs key = Program.code ps key) : OnTime qs key p := by
  have ahead : Program.ahead qs p.position = Program.ahead ps p.position := by
    rw [Program.ahead, own, same, ← own, ← Program.ahead]
  refine ⟨?_, ?_⟩
  · rw [ahead]
    exact h.terminated
  · rw [ahead, same]
    exact h.waiting

/-- A process that waits goes on waiting elsewhere. -/
theorem enter (h : OnTime ps key p) {st : Station} (other : p.state ≠ .terminated)
    (other' : p.state ≠ .running) (ne : st ≠ .terminated) : OnTime ps key (p.enter st) := by
  refine of_waiting ?_ (h.waiting other other')
  cases st <;> first | exact absurd rfl ne | exact nofun

end OnTime

namespace Punctual

variable {ps : List Program} {s s' : Scheduler} {key : Int} {a b : Station}

theorem of_amend (h : Punctual ps s) {f : ControlBlock → ControlBlock}
    (own : ∀ p, s.process? key = some p → OnTime ps key p → OnTime ps key (f p)) :
    Punctual ps (s.amend key f) := by
  intro k q hq
  obtain ⟨p, hp, ⟨rfl, rfl⟩ | ⟨-, rfl⟩⟩ := Scheduler.process?_amend_cases hq
  · exact own p hp (h k p hp)
  · exact h k q hp

/-- A change that concerns neither the state nor the position does not matter. -/
theorem amend (h : Punctual ps s) (key : Int) {f : ControlBlock → ControlBlock}
    (state : ∀ p, (f p).state = p.state) (position : ∀ p, (f p).position = p.position) :
    Punctual ps (s.amend key f) :=
  h.of_amend fun p _ own => own.of_same (state p) (position p)

theorem of_transfer (h : Punctual ps s) (t : Transfer key a b s s')
    (own : ∀ p, s.process? key = some p → OnTime ps key p → OnTime ps key (p.enter b)) :
    Punctual ps s' := by
  intro k q hq
  obtain ⟨p, hp, ⟨rfl, rfl⟩ | ⟨-, rfl⟩⟩ := t.process?_cases hq
  · exact own p hp (h k p hp)
  · exact h k q hp

variable {m m' : Machine} {p : ControlBlock} {i : Instruction}

theorem effect (h : Punctual ps m.scheduler) (sound : Sound ps m) {memory : Memory}
    (effect : Effect m.memory m.scheduler key p i memory s) : Punctual ps s := by
  cases effect with
  | acquire | release | store | nothing => exact h
  | bind => exact h.amend _ (fun _ => rfl) fun _ => rfl
  | @wake r woken rest s front moved =>
    have permitted : Punctual ps (m.scheduler.withPermits r 1) := h
    refine permitted.of_transfer moved fun q hq own => ?_
    have waits : woken ∈ m.scheduler.queue (.blocked r) := by rw [front]; exact List.mem_cons_self
    have blocked : q.state = .blocked := sound.orderly.state_of_mem waits hq
    exact own.enter (by rw [blocked]; decide) (by rw [blocked]; decide) (by decide)

/-- In front of an instruction there is a line ahead. -/
theorem ahead_ne_nil (sound : Sound ps m) (facing : Facing m key p i) :
    Program.ahead ps p.position ≠ [] := by
  intro nothing
  have next := sound.head?_ahead facing.known
  rw [nothing, facing.instruction] at next
  cases next

/-- A process that faces an instruction may go and wait. -/
theorem enter_of_facing (sound : Sound ps m) (facing : Facing m key p i) {st : Station}
    (ne : st.state ≠ .terminated) : OnTime ps key (p.enter st) := by
  refine .of_waiting ne fun nothing => ?_
  have nothing' : Program.ahead ps p.position = [] := nothing
  exact absurd nothing' (ahead_ne_nil sound facing)

theorem complete (h : Punctual ps m.scheduler) (sound : Sound ps m)
    (c : Completion key p i m m') : Punctual ps m'.scheduler := by
  have runs := c.runs sound
  obtain ⟨facing, effect⟩ := c
  obtain ⟨-, p', known', running⟩ := runs
  have counted := (h.effect sound effect).amend key (f := ControlBlock.counted) (fun _ => rfl)
    fun _ => rfl
  refine counted.of_amend fun q hq _ => ?_
  have known := Scheduler.process?_amend_self hq ControlBlock.advance
  cases known'.symm.trans known
  exact .of_running running

theorem depart (h : Punctual ps m.scheduler) (sound : Sound ps m) {start : Int}
    (d : Departure key start m m') : Punctual ps m'.scheduler := by
  cases d with
  | yield => exact h
  | preempt facing moved =>
    refine h.of_transfer moved fun q hq _ => ?_
    cases facing.known.symm.trans hq
    exact enter_of_facing sound facing (by decide)
  | @terminate p s record current known runs at_end moved recorded =>
    have ended := h.amend key (f := ControlBlock.ended m.now) (fun _ => rfl) fun _ => rfl
    refine ended.of_transfer moved fun q hq _ => ?_
    cases (Scheduler.process?_amend_self known _).symm.trans hq
    have next := sound.head?_ahead known
    rw [at_end] at next
    exact ⟨fun _ => List.head?_eq_none_iff.1 next, fun other => absurd rfl other⟩

theorem work (h : Punctual ps m.scheduler) (sound : Sound ps m) (work : Work m m') :
    Punctual ps m'.scheduler := by
  cases work with
  | outside same =>
    rw [Machine.scheduler_of_inside same]
    exact h
  | promote known stands due moved =>
    have waits := sound.orderly.mem_queue_of_station known stands
    refine h.of_transfer moved fun q hq own => ?_
    have pending : q.state = .pending := sound.orderly.state_of_mem waits hq
    exact own.enter (by rw [pending]; decide) (by rw [pending]; decide) (by decide)
  | dispatch dispatch =>
    obtain ⟨idle, front, known, moved⟩ := dispatch
    have taken := h.of_transfer moved fun q _ _ => .of_running rfl
    exact taken.amend _ (fun _ => rfl) fun _ => rfl
  | complete completion => exact h.complete sound completion
  | block blocking =>
    obtain ⟨facing, used_up, moved⟩ := blocking
    have asleep : Punctual ps _ := h.of_transfer moved fun q hq _ => by
      cases facing.known.symm.trans hq
      exact enter_of_facing sound facing (by simp [Station.state])
    exact asleep.amend _ (fun _ => rfl) fun _ => rfl
  | depart departure => exact h.depart sound departure

theorem move (h : Punctual ps m.scheduler) (sound : Sound ps m) (move : Move m m') :
    Punctual ps m'.scheduler := by
  cases move with
  | idle => exact h
  | work work => exact h.work sound work
  | stall stall =>
    obtain ⟨facing, effect, refused⟩ := stall
    exact (h.effect sound effect).amend _ (fun _ => rfl) fun _ => rfl
  | linger stuck => exact h.amend _ (fun _ => rfl) fun _ => rfl

theorem moves (h : Punctual ps m.scheduler) (sound : Sound ps m) (run : Moves m m') :
    Punctual ps m'.scheduler :=
  run.invariant (Q := fun m => Punctual ps m.scheduler)
    (fun _ _ sound punctual move => punctual.move sound move) sound h

theorem load (h : Punctual ps m.scheduler) (sound : Sound ps m) {P : Program}
    (load : Load P m m') : Punctual (ps ++ [P]) m'.scheduler := by
  obtain ⟨released, loaded, arrival⟩ := load
  intro k q hq
  rw [arrival.process?] at hq
  split at hq
  · rename_i new
    cases hq
    refine .of_waiting nofun fun nothing => ?_
    -- all of a new program is ahead
    rw [← nothing, new]
    simp [Program.ahead, ControlBlock.position, ControlBlock.offset, ControlBlock.create]
  · have own : q.position.1 = k := congrArg Prod.fst (sound.position_eq hq)
    have same := sound.code_append_of_mem P (Scheduler.position_mem_positions hq)
    rw [own] at same
    exact (h k q hq).of_code own same

theorem empty : Punctual [] {} := by
  intro key p hp
  cases (Scheduler.process?_empty key).symm.trans hp

end Punctual

theorem Passed.punctual {ps : List Program} {m : Machine} (h : Passed ps m) :
    Punctual ps m.scheduler := by
  obtain ⟨s, seen, punctual⟩ := h.invariant (Q := fun ps m => Punctual ps m.scheduler)
    (fun _ _ empty => empty ▸ Punctual.empty)
    (fun _ _ _ _ sound punctual load => punctual.load sound load)
    (fun _ _ _ sound punctual move => punctual.move sound move)
  intro key p known
  exact punctual key p ((seen.mirrors.process? key).symm.trans known)

/-! ### Between requests -/

/-- A process that has the processor and is running faces an instruction. -/
def Poised (m : Machine) : Prop :=
  ∀ key, m.Runs key → ∃ p i, Facing m key p i

theorem Poised.of_idle {m : Machine} (idle : m.current = none) : Poised m := by
  rintro key ⟨current, -⟩
  rw [idle] at current
  cases current

theorem Poised.of_facing {m : Machine} {key : Int} {p : ControlBlock} {i : Instruction}
    (facing : Facing m key p i) : Poised m := by
  rintro other ⟨current, -⟩
  cases facing.current.symm.trans current
  exact ⟨p, i, facing⟩

theorem Poised.of_not_runs {m : Machine} (nobody : ∀ key, ¬m.Runs key) : Poised m :=
  fun key runs => absurd runs (nobody key)

/-- A process faces the same instruction after another program is loaded. -/
theorem Facing.load {ps : List Program} {P : Program} {m m' : Machine} {key : Int}
    {p : ControlBlock} {i : Instruction} (facing : Facing m key p i) (sound : Sound ps m)
    (load : Load P m m') : Facing m' key p i := by
  have instruction := (sound.instruction_load load facing.known).trans facing.instruction
  obtain ⟨released, loaded, arrival⟩ := load
  exact ⟨facing.current, arrival.process?_of_some facing.known, facing.runs, instruction⟩

/-- A process that has arrived just now is not running. -/
theorem Machine.Runs.before_load {P : Program} {m m' : Machine} {key : Int} (runs : m'.Runs key)
    (load : Load P m m') : m.Runs key := by
  obtain ⟨current, p, known, running⟩ := runs
  obtain ⟨-, -, arrival⟩ := load
  refine ⟨current, p, ?_, running⟩
  dsimp only at known
  rw [arrival.process?] at known
  split at known
  · cases known
    cases running
  · exact known

/-- After a step the process that has the processor faces an instruction, or it waits in vain. -/
theorem Kept.poised_step {ps : List Program} {s m : Machine} (h : Kept ps s m) :
    Poised (after Machine.step m) := by
  cases h with
  | clear sound settled =>
    have step := sound.step_result settled
    unfold after
    cases result : Machine.step s with
    | ok ran m' => exact .of_idle (sound.idle_of_step settled result)
    | error fault m' =>
      rw [result] at step
      cases step with
      | fault promotion occupied halt =>
        have sound₂ := sound.works (promotion.works.trans occupied.works)
        rcases halt.facing_or_stuck sound₂ with ⟨p, i, facing⟩ | ⟨p, r, stuck⟩
        · exact .of_facing facing
        · exact .of_not_runs fun _ => stuck.not_runs (.of_inside rfl)
  | crowded sound stuck same =>
    obtain ⟨s₁, fault, m', promotion, stuck₁, -, result, -, inside⟩ := stuck.step sound same
    rw [after_of_error result]
    have sound₁ := sound.moves (promotion.works.moves.tail (.linger stuck₁))
    exact .of_not_runs fun _ => stuck₁.charge.not_runs (stuck₁.charge.mirrors sound₁ inside)

/-- Between requests a process that has the processor and is running faces the instruction that ended in a
fault. -/
theorem Reachable.poised {ps : List Program} {m : Machine} (h : Reachable ps m) : Poised m := by
  refine Reachable.between (R := fun _ m => Poised m) ?_ ?_ ?_ ?_ h
  · intro ps m m' same _ poised key runs
    obtain ⟨p, i, facing⟩ := poised key (runs.of_inside same.symm)
    exact ⟨p, i, facing.of_inside same⟩
  · exact fun ps s m kept _ => kept.poised_step
  · exact fun m _ idle _ _ => .of_idle idle
  · intro ps P s m m' kept poised load _ key runs
    have before := runs.before_load load
    obtain ⟨p, i, facing⟩ := poised key before
    exact ⟨p, i, facing.load (kept.seen.eq_of_runs before ▸ kept.sound) load⟩

/-- Nothing is ahead of a process exactly if its next address is behind its lines. -/
theorem Holds.ahead_eq_nil_iff {m : Memory} {P : Program} {p : ControlBlock} (h : Holds m P p) :
    P.instructions.drop p.offset = [] ↔ p.pc = p.lowerBound + P.lines.length := by
  have offset := h.offset_le
  have pc := h.lower_add_offset
  rw [List.drop_eq_nil_iff, Program.instructions, List.length_map]
  omega

/-- Between requests a process is at the end of its program exactly if it is terminated or the
program has no lines. -/
theorem Reachable.at_end_iff {ps : List Program} {m : Machine} (h : Reachable ps m) {key : Int}
    {P : Program} {p : ControlBlock} (hP : Program.under ps key = some P)
    (hp : m.scheduler.process? key = some p) :
    p.pc = p.lowerBound + P.lines.length ↔ p.state = .terminated ∨ P.lines = [] := by
  obtain ⟨s, kept⟩ := h.kept
  have sound := kept.sound
  have mirrors := kept.mirrors
  have hp' := (mirrors.process? key).symm.trans hp
  have placed := sound.layout.placed key P p hP hp'
  have on_time := (Passed.reached h).punctual key p hp
  have code : Program.code ps key = [] ↔ P.lines = [] := by
    rw [Program.code_eq hP, Program.instructions, List.map_eq_nil_iff]
  have ahead : Program.ahead ps p.position = P.instructions.drop p.offset := by
    rw [sound.position_eq hp', Program.ahead, Program.code_eq hP]
  rw [← placed.holds.ahead_eq_nil_iff, ← ahead, ← code]
  constructor
  · intro nothing
    by_cases terminated : p.state = .terminated
    · exact .inl terminated
    · refine .inr (on_time.waiting terminated (fun running => ?_) nothing)
      have current := sound.processor.running key (sound.mem_running hp' running)
      have runs : m.Runs key := ⟨mirrors.current.trans current, p, hp, running⟩
      obtain ⟨q, i, facing⟩ := h.poised key runs
      cases hp.symm.trans facing.known
      exact Punctual.ahead_ne_nil (kept.seen.eq_of_runs runs ▸ sound) facing nothing
  · rintro (terminated | nothing)
    · exact on_time.terminated terminated
    · rw [ahead]
      rw [Program.code_eq hP] at nothing
      rw [nothing, List.drop_nil]

end RoundRobin
