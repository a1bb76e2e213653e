import RoundRobin.Proofs.Crowd

/-!
# Runs

What a run does with a machine, as one equation (`runSteps_eq`): nothing if all processes are
terminated, else a notice if none of those left can ever run again or the limit is reached, else a
step and the rest of the run. What follows from this by induction is proved over the `Course` of a
run. So a run consists of moves, also if it ends in a fault (`Proper.run`), and the hand-over of the
results changes nothing inside the machine (`quiet_shutdown`).
-/

namespace RoundRobin

open Operation

namespace Machine

/-- In a deadlock nobody has the processor, is ready or is pending, but somebody is blocked. -/
theorem isDeadlocked_iff (m : Machine) : m.isDeadlocked = true ↔ m.current = none ∧
    m.scheduler.queue .ready = [] ∧ m.scheduler.queue .pending = [] ∧
      0 < m.scheduler.blockedCount := by
  rw [isDeadlocked, Bool.and_eq_true, Bool.and_eq_true, Bool.and_eq_true, isIdle,
    Option.isNone_iff_eq_none, List.isEmpty_iff, List.isEmpty_iff, decide_eq_true_iff, and_assoc,
    and_assoc]
  rfl

/-- A run is over at the end of all processes, in a deadlock and at the limit. Else it goes on with
a step. -/
theorem runSteps_eq (limit : Option Int) (left taken : Nat) (m : Machine) :
    runSteps limit left taken m =
      if m.allTerminated then .ok () m
      else if m.isDeadlocked then
        .ok () (m.record (.notice (.deadlocked m.now m.scheduler.waiters)))
      else if limit.any (· ≤ (taken : Int)) then
        .ok () (m.record (.notice (.stopped taken m.now)))
      else
        match left with
        | 0 => .error .unending m
        | left + 1 => (do
          let _ ← step
          runSteps limit left (taken + 1) : Operation Unit) m := by
  cases left with
  | zero =>
    refine (bind_apply get _ m).trans ?_
    rw [get_apply]
    dsimp only
    split
    · rfl
    · split
      · rfl
      · split <;> rfl
  | succ left =>
    refine (bind_apply get _ m).trans ?_
    rw [get_apply]
    dsimp only
    split
    · rfl
    · split
      · rfl
      · split <;> rfl

/-- A run whose quantum has too many digits to be announced ends before it does anything. -/
theorem run_of_long {m : Machine} (long : ¬Integer.isWritable m.quantum) (limit : Option Int) :
    run limit m = .error .numeralTooLong m := by
  unfold run
  rw [bind_apply, get_apply]
  dsimp only
  rw [bind_apply, announce_apply, if_neg long]

/-- Any other run is announced, and the time at its end is given. -/
theorem run_eq {m : Machine} (short : Integer.isWritable m.quantum) (limit : Option Int) :
    run limit m = match runSteps limit (limit.elim (m.stepBound + patience) Int.toNat) 0
        (m.record (.notice (.started m.quantum))) with
      | .ok () m' => .ok m'.now m'
      | .error fault m' => .error fault m' := by
  unfold run
  rw [bind_apply, get_apply]
  dsimp only
  rw [bind_apply, announce_apply, if_pos short]
  dsimp only
  rw [bind_apply]
  cases runSteps limit (limit.elim (m.stepBound + patience) Int.toNat) 0
      (m.record (.notice (.started m.quantum))) with
  | ok a m' => rfl
  | error fault m' => rfl

/-- The machine after a run is that after its steps. -/
theorem after_run {m : Machine} (short : Integer.isWritable m.quantum) (limit : Option Int) :
    after (run limit) m = after (runSteps limit (limit.elim (m.stepBound + patience) Int.toNat) 0)
      (m.record (.notice (.started m.quantum))) := by
  unfold after
  rw [run_eq short]
  cases runSteps limit (limit.elim (m.stepBound + patience) Int.toNat) 0
    (m.record (.notice (.started m.quantum))) <;> rfl

theorem after_run_cases (limit : Option Int) (m : Machine) : after (run limit) m = m ∨
    after (run limit) m = after (runSteps limit (limit.elim (m.stepBound + patience) Int.toNat) 0)
      (m.record (.notice (.started m.quantum))) := by
  by_cases short : Integer.isWritable m.quantum
  · exact .inr (after_run short limit)
  · exact .inl (after_of_error (run_of_long short limit))

/-- The course of a run of which so many steps may still be taken: it is over at once, is given up,
or goes on with a step. -/
inductive Course (limit : Option Int) :
    Nat → Nat → Machine → EStateM.Result Fault Machine Unit → Prop where
  | terminated {left taken : Nat} {m : Machine} (all : m.allTerminated) :
    Course limit left taken m (.ok () m)
  | deadlocked {left taken : Nat} {m : Machine} (some_left : ¬m.allTerminated)
    (stuck : m.isDeadlocked) : Course limit left taken m
      (.ok () (m.record (.notice (.deadlocked m.now m.scheduler.waiters))))
  | stopped {left taken : Nat} {m : Machine} (some_left : ¬m.allTerminated)
    (alive : ¬m.isDeadlocked) (reached : limit.any (· ≤ (taken : Int))) :
    Course limit left taken m (.ok () (m.record (.notice (.stopped taken m.now))))
  | unending {taken : Nat} {m : Machine} : Course limit 0 taken m (.error .unending m)
  | fault {left taken : Nat} {m m' : Machine} {fault : Fault} (raised : step m = .error fault m') :
    Course limit (left + 1) taken m (.error fault m')
  | step {left taken : Nat} {m m₁ : Machine} {ran : Bool}
    {result : EStateM.Result Fault Machine Unit} (took : step m = .ok ran m₁)
    (rest : Course limit left (taken + 1) m₁ result) : Course limit (left + 1) taken m result

theorem runSteps_course (limit : Option Int) (left taken : Nat) (m : Machine) :
    Course limit left taken m (runSteps limit left taken m) := by
  rw [runSteps_eq]
  by_cases all : m.allTerminated
  · rw [if_pos all]
    exact .terminated all
  · by_cases stuck : m.isDeadlocked
    · rw [if_neg all, if_pos stuck]
      exact .deadlocked all stuck
    · by_cases reached : limit.any (· ≤ (taken : Int))
      · rw [if_neg all, if_neg stuck, if_pos reached]
        exact .stopped all stuck reached
      · rw [if_neg all, if_neg stuck, if_neg reached]
        cases left with
        | zero => exact .unending
        | succ left =>
          dsimp only
          rw [bind_apply]
          cases result : step m with
          | error fault m' => exact .fault result
          | ok ran m₁ => exact .step result (runSteps_course limit left (taken + 1) m₁)

theorem quiet_conclude (events : List Event) (outcome : Except Fault Unit) :
    Quiet (conclude events outcome) := by
  intro m
  cases outcome <;> rfl

theorem quiet_recordAll (events : List Event) : Quiet (modify fun m => m.recordAll events) :=
  fun _ => rfl

theorem quiet_printReport : Quiet printReport :=
  quiet_get.bind fun _ => (quiet_ofExcept _).bind fun _ => quiet_conclude _ _

theorem quiet_drawChart (chartFile : Option String) : Quiet (drawChart chartFile) := by
  unfold drawChart
  cases chartFile with
  | none => exact quiet_pure ()
  | some file =>
    dsimp only
    split
    · exact quiet_pure ()
    · exact quiet_get.bind fun m => (quiet_ofExcept _).bind fun title =>
        (quiet_ofExcept _).bind fun events => quiet_recordAll events

theorem quiet_exportResults (resultsFile : Option String) : Quiet (exportResults resultsFile) := by
  unfold exportResults
  cases resultsFile with
  | none => exact quiet_pure ()
  | some file =>
    dsimp only
    split
    · exact quiet_pure ()
    · refine quiet_get.bind fun m => Quiet.bind (fun _ => rfl) fun _ => ?_
      exact (quiet_ofExcept _).bind fun events => quiet_recordAll events

/-- Handing over the results changes nothing inside the machine. -/
theorem quiet_shutdown (chartFile resultsFile : Option String) :
    Quiet (shutdown chartFile resultsFile) :=
  quiet_printReport.bind fun _ => (quiet_drawChart chartFile).bind fun _ =>
    quiet_exportResults resultsFile

end Machine

/-- An operation during which the sound machine, by which a machine is judged, makes moves, also if it ends
in a fault. -/
def Proper {α : Type} (op : Operation α) : Prop :=
  ∀ ps s m, Kept ps s m → ∃ s', Kept ps s' (after op m) ∧ Moves s s'

namespace Proper

variable {α β : Type}

theorem of_quiet {op : Operation α} (quiet : Quiet op) : Proper op := fun _ _ m h => h.quiet (quiet m)

theorem bind {x : Operation α} {f : α → Operation β} (hx : Proper x) (hf : ∀ a, Proper (f a)) :
    Proper (x >>= f) := by
  intro ps s m h
  refine after_bind (Q := fun m' => ∃ s', Kept ps s' m' ∧ Moves s s') (hx ps s m h) ?_
  rintro a m' - ⟨s₁, kept, moves⟩
  obtain ⟨s₂, kept', moves'⟩ := hf a ps s₁ m' kept
  exact ⟨s₂, kept', moves.trans moves'⟩

theorem step : Proper Machine.step := fun _ _ _ h => h.step

theorem runSteps (limit : Option Int) (left taken : Nat) :
    Proper (Machine.runSteps limit left taken) := by
  intro ps s m h
  have course := Machine.runSteps_course limit left taken m
  unfold after
  generalize Machine.runSteps limit left taken m = result at course ⊢
  induction course generalizing s with
  | terminated | unending => exact ⟨s, h, .refl⟩
  | deadlocked | stopped => exact h.quiet rfl
  | fault raised =>
    have kept := h.step
    rwa [after_of_error raised] at kept
  | step took rest ih =>
    obtain ⟨s₁, kept, moves⟩ := h.step
    rw [after_of_ok took] at kept
    obtain ⟨s₂, kept', moves'⟩ := ih s₁ kept
    exact ⟨s₂, kept', moves.trans moves'⟩

theorem run (limit : Option Int) : Proper (Machine.run limit) :=
  (of_quiet quiet_get).bind fun _ => (of_quiet (quiet_announce _ _)).bind fun _ =>
    (runSteps _ _ _).bind fun _ => of_quiet (quiet_get.bind fun _ => quiet_pure _)

end Proper

/-! ### Nothing changes the quantum and the pauses -/

theorem Move.quantum {m m' : Machine} (move : Move m m') : m'.quantum = m.quantum := by
  cases move with
  | idle | linger => rfl
  | stall stall =>
    cases stall
    rfl
  | work work =>
    cases work with
    | outside same => exact Machine.quantum_of_inside same
    | promote => rfl
    | dispatch dispatch => exact dispatch.quantum
    | complete completion =>
      cases completion
      rfl
    | block blocking =>
      cases blocking
      rfl
    | depart departure => exact departure.quantum

theorem Move.rests {m m' : Machine} (move : Move m m') : m'.Rests ↔ m.Rests := by
  cases move with
  | idle | linger => rfl
  | stall stall =>
    cases stall
    rfl
  | work work =>
    cases work with
    | outside same => exact Machine.rests_of_inside same
    | promote => rfl
    | dispatch dispatch =>
      cases dispatch
      rfl
    | complete completion => exact completion.rests
    | block blocking =>
      cases blocking
      rfl
    | depart departure => cases departure <;> rfl

theorem Moves.rests {m m' : Machine} (moves : Moves m m') : m'.Rests ↔ m.Rests := by
  induction moves with
  | refl => rfl
  | tail _ move ih => exact move.rests.trans ih

theorem Moves.quantum {m m' : Machine} (moves : Moves m m') : m'.quantum = m.quantum := by
  induction moves with
  | refl => rfl
  | tail _ move ih => exact move.quantum.trans ih

theorem Proper.rests {α : Type} {op : Operation α} (proper : Proper op) {ps : List Program}
    {s m : Machine} (h : Kept ps s m) : (after op m).Rests ↔ m.Rests := by
  obtain ⟨s', kept, moves⟩ := proper ps s m h
  exact (kept.mirrors.rests.trans moves.rests).trans h.mirrors.rests.symm

theorem Proper.quantum {α : Type} {op : Operation α} (proper : Proper op) {ps : List Program}
    {s m : Machine} (h : Kept ps s m) : (after op m).quantum = m.quantum := by
  obtain ⟨s', kept, moves⟩ := proper ps s m h
  exact (kept.mirrors.quantum.trans moves.quantum).trans h.mirrors.quantum.symm

end RoundRobin
