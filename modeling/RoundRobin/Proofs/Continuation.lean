import RoundRobin.Proofs.Display
import RoundRobin.Proofs.Failure
import RoundRobin.Proofs.Veil

/-!
# Stopping and going on

Apart from what runs say of themselves (`Event.isAnnouncement`), a run with a limit is a walk: steps
are taken until the machine is finished or the limit is reached (`Machine.walk`). A walk can be
stopped anywhere and taken up again (`walk_add`), and a run without a limit is a walk of any number of
steps that is large enough (`Kept.run_none_like`). So it does not matter whether a run is stopped and
taken up again, and a run of a finished machine does nothing (`Reachable.resumed`).
-/

namespace RoundRobin

open Operation

/-- What a run says of its own beginning and end. -/
def Event.isAnnouncement : Event → Bool
  | .notice (.started _) | .notice (.deadlocked _ _) | .notice (.stopped _ _) => true
  | _ => false

/-- A veil that hides what runs say of themselves. -/
def Veil.Mutes (v : Veil) : Prop := ∀ e : Event, e.isAnnouncement → v.hides e

/-- A veil over what runs say of themselves, and nothing else. -/
def Veil.announcements : Veil := { hides := Event.isAnnouncement }

theorem Veil.mutes_announcements : Veil.announcements.Mutes := fun _ own => own

namespace Machine

/-- Takes steps until the machine is finished or so many were taken. -/
def walk : Nat → Operation Unit
  | 0 => pure ()
  | n + 1 => do
    let m ← get
    if m.allTerminated || m.isDeadlocked then return
    let _ ← step
    walk n

variable {m m' : Machine}

theorem finished_iff (m : Machine) : m.Finished ↔ (m.allTerminated || m.isDeadlocked) = true := by
  rw [Bool.or_eq_true]
  rfl

theorem walk_of_finished (finished : m.Finished) (n : Nat) : walk n m = .ok () m := by
  cases n with
  | zero => rfl
  | succ n =>
    rw [walk, bind_apply, get_apply]
    dsimp only
    rw [if_pos ((finished_iff m).1 finished)]
    rfl

theorem walk_succ (unfinished : ¬m.Finished) (n : Nat) :
    walk (n + 1) m = (do let _ ← step; walk n : Operation Unit) m := by
  rw [walk, bind_apply, get_apply]
  dsimp only
  rw [if_neg (mt (finished_iff m).2 unfinished)]

/-- A walk can be stopped anywhere and taken up again. -/
theorem walk_add (a b : Nat) (m : Machine) :
    walk (a + b) m = (do walk a; walk b : Operation Unit) m := by
  induction a generalizing m with
  | zero =>
    rw [Nat.zero_add]
    rfl
  | succ a ih =>
    by_cases finished : m.Finished
    · rw [walk_of_finished finished, bind_apply, walk_of_finished finished]
      exact (walk_of_finished finished b).symm
    · rw [Nat.add_right_comm, walk_succ finished, bind_apply, bind_apply, walk_succ finished,
        bind_apply]
      cases step m with
      | error fault m' => rfl
      | ok ran m' => exact (ih m').trans (bind_apply _ _ _)

theorem respects_walk {R : Machine → Machine → Prop} (L : Likeness.Timing R) (n : Nat) :
    Respects R (walk n) := by
  induction n with
  | zero => exact .pure ()
  | succ n ih =>
    refine L.look (fun m => ?_) fun m => ?_
    case refine_2 =>
      rw [m.allTerminated_bare]
      rfl
    split
    · exact .pure ()
    · exact L.step.bind fun _ => ih

theorem blind_walk (n : Nat) : Blind .announcements (walk n) :=
  respects_walk (Veil.likeness_of_open rfl) n

/-- A walk and the time at its end. -/
def walkOut (n : Nat) : Operation Int := do
  walk n
  return (← get).now

/-! ### Runs are walks -/

/-- A run of a finished machine is over, and at most says so. -/
theorem runSteps_of_finished {v : Veil} (mutes : v.Mutes) (finished : m.Finished)
    (limit : Option Int) (left taken : Nat) :
    veil v (runSteps limit left taken m) = veil v (.ok () m) := by
  rw [runSteps_eq]
  by_cases all : m.allTerminated
  · rw [if_pos all]
  · rw [if_neg all, if_pos (finished.resolve_left all)]
    exact congrArg (EStateM.Result.ok ()) (m.veiled_record_of_hidden v (mutes _ rfl))

theorem runSteps_of_unfinished (unfinished : ¬m.Finished) {limit : Option Int} {taken : Nat}
    (open_end : limit.any (· ≤ (taken : Int)) = false) (left : Nat) :
    runSteps limit (left + 1) taken m
      = (do let _ ← step; runSteps limit left (taken + 1) : Operation Unit) m := by
  obtain ⟨some_left, alive⟩ := not_or.1 unfinished
  rw [runSteps_eq, if_neg some_left, if_neg alive, if_neg (by rw [open_end]; decide)]

/-- Up to its limit a run is a walk. -/
theorem runSteps_some_like (a taken : Nat) (m : Machine) :
    veil .announcements (runSteps (some ((taken + a : Nat) : Int)) a taken m)
      = veil .announcements (walk a m) := by
  induction a generalizing taken m with
  | zero =>
    by_cases finished : m.Finished
    · exact runSteps_of_finished Veil.mutes_announcements finished _ _ _
    · obtain ⟨some_left, alive⟩ := not_or.1 finished
      rw [runSteps_eq, if_neg some_left, if_neg alive, if_pos (by simp)]
      exact congrArg (EStateM.Result.ok ()) (m.veiled_record_of_hidden .announcements rfl)
  | succ a ih =>
    by_cases finished : m.Finished
    · rw [walk_of_finished finished]
      exact runSteps_of_finished Veil.mutes_announcements finished _ _ _
    · rw [runSteps_of_unfinished finished (by simp), walk_succ finished]
      refine veil_bind rfl fun ran m₁ m₂ took took' _ => ?_
      cases took.symm.trans took'
      rw [← ih (taken + 1) m₁, Nat.add_right_comm]
      rfl

/-- A run is announced, its steps are taken, and it gives the time. -/
theorem run_apply {m : Machine} (short : Integer.isWritable m.quantum) (limit : Option Int) :
    run limit m = (do
      runSteps limit (limit.elim (m.stepBound + patience) Int.toNat) 0
      return (← get).now : Operation Int) (m.record (.notice (.started m.quantum))) := by
  rw [run_eq short, bind_apply]
  cases runSteps limit (limit.elim (m.stepBound + patience) Int.toNat) 0
    (m.record (.notice (.started m.quantum))) <;> rfl

/-- What a run says at its beginning does not matter for what comes of it. -/
theorem run_like (short : Integer.isWritable m.quantum) {limit : Option Int} {n : Nat}
    (steps : ∀ m' : Machine, m'.inside = m.inside → veil .announcements
      (runSteps limit (limit.elim (m.stepBound + patience) Int.toNat) 0 m')
        = veil .announcements (walk n m')) :
    veil .announcements (run limit m) = veil .announcements (walkOut n m) := by
  have said := m.veiled_record_of_hidden .announcements (e := .notice (.started m.quantum)) rfl
  rw [run_apply short]
  have walked := (steps (m.record (.notice (.started m.quantum))) rfl).trans
    ((blind_walk n).congr said)
  exact veil_bind walked fun _ m₁ m₂ _ _ same =>
    Blind.congr (Veil.likeness .announcements).now same

theorem run_some_like (short : Integer.isWritable m.quantum) (a : Nat) :
    veil .announcements (run (some (a : Int)) m) = veil .announcements (walkOut a m) := by
  refine run_like short fun m' _ => ?_
  have walk := runSteps_some_like a 0 m'
  rw [Nat.zero_add] at walk
  exact walk

/-- After so many steps a walk has come to its end: in a fault, or at a finished machine. -/
def Suffices (m : Machine) (n : Nat) : Prop := ∀ m', walk n m = .ok () m' → m'.Finished

/-- Beyond that the length of a walk does not matter. -/
theorem Suffices.walk_eq {a b : Nat} (enough : m.Suffices a) (longer : a ≤ b) :
    walk b m = walk a m := by
  obtain ⟨more, rfl⟩ := Nat.exists_eq_add_of_le longer
  rw [walk_add, bind_apply]
  cases walked : walk a m with
  | error fault m' => rfl
  | ok _ m' => exact walk_of_finished (enough m' walked) more

/-- A run without a limit is a walk of as many steps as it may take. -/
theorem Suffices.runSteps_none_like {fuel : Nat} (enough : m.Suffices fuel) (taken : Nat) :
    veil .announcements (runSteps none fuel taken m) = veil .announcements (walk fuel m) := by
  induction fuel generalizing m taken with
  | zero => exact runSteps_of_finished Veil.mutes_announcements (enough m rfl) _ _ _
  | succ fuel ih =>
    by_cases finished : m.Finished
    · rw [walk_of_finished finished]
      exact runSteps_of_finished Veil.mutes_announcements finished _ _ _
    · rw [runSteps_of_unfinished finished rfl, walk_succ finished]
      refine veil_bind rfl fun ran m₁ m₂ took took' _ => ?_
      cases took.symm.trans took'
      refine ih (fun m' walked => enough m' ?_) (taken + 1)
      rw [walk_succ finished, bind_apply, took]
      exact walked

end Machine

/-- A walk of a sound machine comes to its end. -/
theorem Sound.suffices {ps : List Program} {m : Machine} (h : Sound ps m) (settled : Settled m) {n : Nat}
    (enough : m.left ps ≤ n) : m.Suffices n := by
  intro m' walked
  induction n generalizing m with
  | zero =>
    cases walked
    by_contra unfinished
    have some_left := h.left_pos unfinished
    omega
  | succ n ih =>
    by_cases finished : m.Finished
    · rw [Machine.walk_of_finished finished] at walked
      cases walked
      exact finished
    · rw [Machine.walk_succ finished, bind_apply] at walked
      cases took : Machine.step m with
      | error fault m₁ =>
        rw [took] at walked
        cases walked
      | ok ran m₁ =>
        rw [took] at walked
        obtain ⟨moves, -⟩ := h.after_step settled
        rw [after_of_ok took] at moves
        have fewer := (h.step_falls settled finished took).2
        exact ih (h.moves moves) (.of_idle (h.idle_of_step settled took)) (by omega) walked

namespace Kept

variable {ps : List Program} {s m : Machine}

/-- A run may take enough steps. -/
theorem suffices_stepBound (h : Kept ps s m) (started : 0 ≤ m.now) :
    m.Suffices (m.stepBound + Machine.patience) := by
  cases h with
  | clear sound settled =>
    exact sound.suffices settled (Nat.le_add_right_of_le (sound.left_le_stepBound started))
  | crowded sound stuck same =>
    intro m' walked
    obtain ⟨_, _, _, -, -, -, raised, -⟩ := stuck.step sound same
    by_cases finished : m.Finished
    · rw [Machine.walk_of_finished finished] at walked
      cases walked
      exact finished
    · -- the first step ends in a fault
      have some_step : m.stepBound + Machine.patience = m.stepBound + (Machine.patience - 1) + 1 := rfl
      rw [some_step, Machine.walk_succ finished, bind_apply, raised] at walked
      cases walked

/-- A run without a limit is any walk that is at least as long. -/
theorem run_none_like (h : Kept ps s m) (started : 0 ≤ m.now) (short : Integer.isWritable m.quantum)
    {n : Nat} (enough : m.stepBound + Machine.patience ≤ n) :
    veil .announcements (Machine.run none m) = veil .announcements (Machine.walkOut n m) := by
  refine Machine.run_like short fun m' same => ?_
  obtain ⟨s', kept, -⟩ := h.quiet same
  have bound : m'.stepBound = m.stepBound := (congrArg Machine.stepBound same :)
  have now : m'.now = m.now := Machine.now_of_inside same
  have suffices_bound := kept.suffices_stepBound (now ▸ started)
  rw [bound] at suffices_bound
  rw [suffices_bound.walk_eq enough]
  exact suffices_bound.runSteps_none_like 0

end Kept

/-! ### Stopping and going on -/

namespace Machine

/-- But for what runs say of themselves, this veil hides nothing. -/
theorem veiled_announcements (m : Machine) : m.veiled .announcements
    = { m with log := (m.log.toList.filter fun e => !e.isAnnouncement).toArray } := by
  have scheduler : m.scheduler.veiled .announcements = m.scheduler :=
    m.scheduler.veiled_of_open rfl
  rw [veiled, scheduler]
  rfl

theorem walkOut_add (a b : Nat) (m : Machine) :
    (do let _ ← walkOut a; walkOut b : Operation Int) m = walkOut (a + b) m := by
  unfold walkOut
  rw [bind_apply, bind_apply, bind_apply, walk_add, bind_apply]
  cases walk a m with
  | error fault m' => rfl
  | ok _ m' => exact bind_apply (walk b) _ m'

/-- A run that is stopped and taken up again is a walk that is stopped and taken up again. -/
theorem run_run_like {a b : Nat} {limit : Option Int} {m : Machine}
    (short : Integer.isWritable m.quantum)
    (second : ∀ m', after (run (some (a : Int))) m = m' →
      veil .announcements (run limit m') = veil .announcements (walkOut b m')) :
    veil .announcements ((do let _ ← run (some (a : Int)); run limit : Operation Int) m)
      = veil .announcements (walkOut (a + b) m) := by
  rw [← walkOut_add]
  refine veil_bind (run_some_like short a) fun _ m₁ m₂ first _ same => ?_
  have walked : Respects Veil.announcements.Alike (walkOut b) :=
    .bind (blind_walk b) fun _ => (Veil.likeness .announcements).now
  exact (second m₁ (after_of_ok first)).trans (Blind.congr walked same)

/-- If the quantum has too many digits to be announced, then the first of two runs ends before it does
anything, as any other run does. -/
theorem run_run_of_long {m : Machine} (long : ¬Integer.isWritable m.quantum) (limit limit' : Option Int) :
    (do let _ ← run limit; run limit' : Operation Int) m = .error .numeralTooLong m := by
  rw [bind_apply, run_of_long long]

end Machine

namespace Reachable

variable {ps : List Program} {m : Machine}

/-- A run leaves the quantum as it is. -/
theorem quantum_run (h : Reachable ps m) (limit : Option Int) :
    (after (Machine.run limit) m).quantum = m.quantum := by
  obtain ⟨s, kept⟩ := h.kept
  exact (Proper.run limit).quantum kept

/-- Wherever requests lead, a run with a limit and then another run do what one run does that may take
as many steps as both: they end with the same time or in the same fault, and leave the same machine
behind, but for what runs say of themselves. So does a run with a limit and then a run without one. A
run of a finished machine changes nothing and gives the time, or ends in the fault that the quantum has
too many digits to be announced. -/
theorem resumed (h : Reachable ps m) :
    (∀ a b : Nat, veil .announcements
        ((do let _ ← Machine.run (some (a : Int)); Machine.run (some (b : Int)) : Operation Int) m)
      = veil .announcements (Machine.run (some ((a + b : Nat) : Int)) m)) ∧
    (∀ a : Nat, veil .announcements
        ((do let _ ← Machine.run (some (a : Int)); Machine.run none : Operation Int) m)
      = veil .announcements (Machine.run none m)) ∧
    (m.Finished → ∀ limit, if Integer.isWritable m.quantum then
        ∃ m', Machine.run limit m = .ok m.now m' ∧ m'.veiled .announcements = m.veiled .announcements
      else Machine.run limit m = .error .numeralTooLong m) := by
  refine ⟨fun a b => ?_, fun a => ?_, fun finished limit => ?_⟩
  · by_cases short : Integer.isWritable m.quantum
    · rw [Machine.run_some_like short]
      refine Machine.run_run_like short fun m' reached => Machine.run_some_like ?_ b
      rwa [← reached, h.quantum_run]
    · rw [Machine.run_run_of_long short, Machine.run_of_long short]
  · by_cases short : Integer.isWritable m.quantum
    · obtain ⟨s, kept⟩ := h.kept
      have stopped := h.run (some (a : Int))
      obtain ⟨s', kept'⟩ := stopped.kept
      have short' : Integer.isWritable (after (Machine.run (some (a : Int))) m).quantum := by
        rwa [h.quantum_run]
      -- a number of steps that is enough from where the first run is stopped and from the beginning
      rw [kept.run_none_like h.now_nonneg short (n := a + (m.stepBound + Machine.patience
        + ((after (Machine.run (some (a : Int))) m).stepBound + Machine.patience))) (by omega)]
      refine Machine.run_run_like short fun m' reached => ?_
      subst reached
      exact kept'.run_none_like stopped.now_nonneg short' (by omega)
    · rw [Machine.run_run_of_long short, Machine.run_of_long short]
  · by_cases short : Integer.isWritable m.quantum
    · rw [if_pos short]
      have at_once : veil .announcements (Machine.run limit m)
          = veil .announcements (Machine.walkOut 0 m) := by
        refine Machine.run_like short fun m' same => ?_
        exact Machine.runSteps_of_finished Veil.mutes_announcements (finished.of_inside same) limit _ 0
      exact eq_ok_of_veil at_once
    · rw [if_neg short]
      exact Machine.run_of_long short limit

/-- Two processes contend for a resource. A run that is stopped after three steps, when the second
process has just been blocked, goes on to the end as if it had not been stopped. -/
theorem resumed_contending : ∃ m, Reachable [⟨["semWait file", "print x", "semSignal file"], 0⟩,
      ⟨["semWait file", "semSignal file"], 1⟩] m ∧
    (after (Machine.run (some (3 : Nat))) m).scheduler.blocked .file = [2] ∧
    veil .announcements ((do let _ ← Machine.run (some (3 : Nat)); Machine.run none : Operation Int) m)
      = veil .announcements (Machine.run none m) ∧
    (outcome (Machine.run none) m).toOption = some 6 := by
  have made := Reachable.fresh 1 20 (by decide) (by decide)
  have first := made.after_createProcess ["semWait file", "print x", "semSignal file"] 0
    (by decide) (by decide)
  have second := first.after_createProcess ["semWait file", "semSignal file"] 1
    (by decide) (by decide)
  exact ⟨_, second, by decide +kernel, second.resumed.2.1 3, by decide +kernel⟩

end Reachable

end RoundRobin
