import RoundRobin.Process.Queue
import RoundRobin.Resource

/-!
# Semaphores

Each resource is guarded by a semaphore: a count of permits, which a signal sets to one and does
not raise further, and the queue of the processes that wait for it. A signal hands nothing over: a
process that it wakes has to ask again.
-/

namespace RoundRobin

/-- The guard of one resource. -/
structure Semaphore where
  count : Int := 1
  blocked : Queue := []
  deriving DecidableEq, Repr, Inhabited

namespace Semaphore

def isAvailable (s : Semaphore) : Bool := 0 < s.count

end Semaphore

/-- The semaphores of all resources. -/
structure Semaphores where
  file : Semaphore := {}
  userInput : Semaphore := {}
  userOutput : Semaphore := {}
  deriving DecidableEq, Repr, Inhabited

namespace Semaphores

def get (s : Semaphores) : Resource → Semaphore
  | .file => s.file
  | .userInput => s.userInput
  | .userOutput => s.userOutput

def set (s : Semaphores) (r : Resource) (guard : Semaphore) : Semaphores :=
  match r with
  | .file => { s with file := guard }
  | .userInput => { s with userInput := guard }
  | .userOutput => { s with userOutput := guard }

theorem get_set (s : Semaphores) (r other : Resource) (guard : Semaphore) :
    (s.set r guard).get other = if other = r then guard else s.get other := by
  cases r <;> cases other <;> rfl

end Semaphores

end RoundRobin
