/-!
# The clock

Simulated time, counted in ticks. It moves only when it is told to.
-/

namespace RoundRobin

structure Clock where
  now : Int := 0
  deriving DecidableEq, Repr, Inhabited

namespace Clock

/-- The clock after some ticks. -/
def tick (c : Clock) (ticks : Int := 1) : Clock := ⟨c.now + ticks⟩

end Clock

end RoundRobin
