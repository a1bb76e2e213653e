/-!
# Resources

The three resources that programs share. Each has a name, by which instructions and messages refer
to it, and no other name refers to one (`ofName?_eq_some_iff`).
-/

namespace RoundRobin

/-- What a program may have to wait for. -/
inductive Resource where
  | file
  | userInput
  | userOutput
  deriving DecidableEq, Repr, Inhabited

namespace Resource

/-- The resources in the order in which they are listed. -/
def all : List Resource := [file, userInput, userOutput]

def name : Resource → String
  | file => "file"
  | userInput => "userInput"
  | userOutput => "userOutput"

/-- The resource of a name. -/
def ofName? (text : String) : Option Resource := all.find? fun r => r.name == text

theorem mem_all (r : Resource) : r ∈ all := by cases r <;> decide

theorem name_injective {r s : Resource} (h : r.name = s.name) : r = s := by
  revert h
  cases r <;> cases s <;> decide

theorem ofName?_eq_some_iff (text : String) (r : Resource) :
    ofName? text = some r ↔ text = r.name := by
  constructor
  · intro h
    have named := List.find?_some (p := fun r : Resource => r.name == text) h
    exact (beq_iff_eq.1 named).symm
  · rintro rfl
    cases r <;> decide

end Resource

end RoundRobin
