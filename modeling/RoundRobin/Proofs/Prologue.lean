import RoundRobin.CommandLine.Session
import RoundRobin.Proofs.Likeness

/-!
# What was said before

What the machine does is added to its log, and nothing that it does depends on what the log holds. So a
row of events that was recorded before an operation stands in front of what the operation records and
makes no other difference: the operation is `Deaf` to it. All that the machine does is deaf, up to the
loading of the programs (`CommandLine.deaf_loadPrograms`) and their run with the hand-over of the results
(`CommandLine.deaf_runPrograms`).
-/

namespace RoundRobin

open Operation

/-- The machine with some events recorded before all others. -/
def Machine.prefaced (before : List Event) (m : Machine) : Machine :=
  { m with log := before.toArray ++ m.log }

namespace Machine

variable (before : List Event) (m : Machine)

theorem recordAll_prefaced (es : List Event) :
    (m.prefaced before).recordAll es = (m.recordAll es).prefaced before := by
  have log : before.toArray ++ m.log ++ es = before.toArray ++ (m.log ++ es) := by
    apply Array.ext'
    simp
  exact congrArg (fun log => { m with log }) log

theorem record_prefaced (e : Event) : (m.prefaced before).record e = (m.record e).prefaced before := by
  simp [record, prefaced]

/-- A machine is like the same machine with some events recorded before. -/
theorem likeness_prefaced : Likeness.Timing fun m m' => m' = m.prefaced before where
  bare := by
    rintro m m' rfl
    rfl
  memory := by
    rintro m m' rfl memory
    rfl
  clock := by
    rintro m m' rfl clock
    rfl
  current := by
    rintro m m' rfl current
    rfl
  nextAddress := by
    rintro m m' rfl nextAddress
    rfl
  inputs := by
    rintro m m' rfl inputs
    rfl
  scheduler := by
    rintro m m' s s' rfl _ same
    rw [same rfl rfl]
    rfl
  metrics := by
    rintro m m' f rfl _
    rfl
  told := by
    rintro m m' es rfl _
    exact m.recordAll_prefaced before es
  shown := by
    rintro m m' n rfl _
    rw [m.record_prefaced before, apply_ite (prefaced before)]
    rfl
  counted key := by
    refine respects_countInstruction key ?_ ?_ ?_
    · rintro m m' rfl
      rfl
    · rintro m m' rfl
      exact ⟨rfl, rfl⟩
    · rintro m m' rfl delay
      exact m.record_prefaced before _
  storage := by
    rintro m m' path content storage rfl _
    rfl
  quantum := by
    rintro m m' rfl
    rfl
  processes := by
    rintro m m' rfl
    rfl
  measured := by
    rintro m m' rfl
    rfl

end Machine

namespace Operation

variable {α β : Type}

/-- What comes of an operation, with some events recorded before all others. -/
def preface (before : List Event) :
    EStateM.Result Fault Machine α → EStateM.Result Fault Machine α
  | .ok a m => .ok a (m.prefaced before)
  | .error fault m => .error fault (m.prefaced before)

/-- An operation that does the same whatever was recorded before. -/
def Deaf (x : Operation α) : Prop :=
  ∀ before m, x (m.prefaced before) = preface before (x m)

theorem Deaf.of_respects {x : Operation α}
    (h : ∀ before, Respects (fun m m' => m' = m.prefaced before) x) : Deaf x := by
  intro before m
  have related := h before (rfl : m.prefaced before = m.prefaced before)
  revert related
  generalize x m = r
  generalize x (m.prefaced before) = r'
  rintro (⟨a, rfl⟩ | ⟨fault, rfl⟩)
  · rfl
  · rfl

end Operation

namespace CommandLine

theorem respects_loadPrograms {R : Machine → Machine → Prop} (L : Likeness R)
    (programs : List (List String × Int)) : Respects R (loadPrograms programs) := by
  induction programs with
  | nil => exact .pure ()
  | cons program rest ih => exact (L.createProcess _ _).bind fun _ => ih

theorem deaf_loadPrograms (programs : List (List String × Int)) : Deaf (loadPrograms programs) :=
  .of_respects fun before =>
    respects_loadPrograms (Machine.likeness_prefaced before).toLikeness programs

theorem deaf_runPrograms (o : Options) : Deaf (runPrograms o) :=
  .of_respects fun before => ((Machine.likeness_prefaced before).run none).bind fun _ =>
    (Machine.likeness_prefaced before).shutdown o.gantt o.csv

end CommandLine

end RoundRobin
