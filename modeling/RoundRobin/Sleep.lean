import RoundRobin.Fault

/-!
# Sleep

The pause after an instruction is left to a service of the system below, which may refuse to pause.
A machine that is never refused anything does not notice what its pauses are (`Sleep.returning`);
the service of the operating system refuses a pause that is negative, no number, or so long that its
nanoseconds do not fit into 64 bits (`Sleep.real`).
-/

namespace RoundRobin

/-- A service that pauses: the pauses that it refuses, and how. -/
structure Sleep where
  refusal? : Binary64 → Option Fault
  pauses : ∀ delay fault, refusal? delay = some fault → fault.isPause

namespace Sleep

/-- Every pause comes to its end. -/
def returning : Sleep := ⟨fun _ => none, nofun⟩

instance : Inhabited Sleep := ⟨returning⟩

/-- The nanoseconds in a number of seconds, without their sign and rounded up, unless they are too
many for a binary64 number. -/
def nanoseconds? (significand : Nat) (exponent : Int) : Option Nat :=
  match (Binary64.finite false significand exponent).scaleBy (Nat.pow 10 9) with
  | .finite _ m e =>
    let (n, d) := Binary64.scale m 1 (-e)
    some ((n + d - 1) / d)
  | _ => none

/-- The first number of nanoseconds that is too great. -/
def limit : Nat := Nat.pow 2 63

/-- How the operating system refuses a pause. A negative pause may have one nanosecond more to be seen as
negative, and not as out of range. -/
def realRefusal? : Binary64 → Option Fault
  | .nan => some .undefinedDelay
  | .infinite _ => some .delayOutOfRange
  | .finite negative m e =>
    match nanoseconds? m e with
    | none => some .delayOutOfRange
    | some n =>
      if negative then
        if limit < n then some .delayOutOfRange
        else if 0 < n then some .negativeDelay
        else none
      else if limit ≤ n then some .delayOutOfRange
      else none

theorem isPause_of_realRefusal? {delay : Binary64} {fault : Fault}
    (refused : realRefusal? delay = some fault) : fault.isPause := by
  unfold realRefusal? at refused
  repeat' split at refused
  all_goals first
    | cases refused; rfl
    | cases refused

/-- The service of the operating system. -/
def real : Sleep := ⟨realRefusal?, fun _ _ => isPause_of_realRefusal?⟩

/-- Whether a machine with this delay can go on after an instruction: no pause is asked for, or the
pause is not refused. -/
def Accepts (s : Sleep) (delay : Binary64) : Prop := delay.isZero ∨ s.refusal? delay = none

instance (s : Sleep) (delay : Binary64) : Decidable (s.Accepts delay) :=
  decidable_of_iff (delay.isZero ∨ (s.refusal? delay).isNone) (by simp [Accepts])

theorem accepts_returning (delay : Binary64) : returning.Accepts delay := .inr rfl

end Sleep

end RoundRobin
