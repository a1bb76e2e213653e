import RoundRobin.Number.Integer
import RoundRobin.Number.Shortest
import RoundRobin.Text.Quoted

/-!
# Settings as given

The quantum and the release times are given from outside as values of any kind, and only some of
them are accepted. A refused value is shown in the message that refuses it.
-/

namespace RoundRobin

/-- A value given for a quantum or a release time. -/
inductive Setting where
  | nothing
  | truth (value : Bool)
  | whole (value : Int)
  | real (value : Binary64)
  | text (value : String)
  | sequence (items : List Setting)
  | record (fields : List (String × Setting))
  deriving Repr, Inhabited

namespace Setting

/-- The integer that a setting is. A truth value is not one, and neither is a real number without
a fraction. -/
def integer? : Setting → Option Int
  | whole n => some n
  | _ => none

mutual

/-- The text of a setting in a message. -/
def shown : Setting → String
  | nothing => "None"
  | truth value => if value then "True" else "False"
  | whole n => Integer.text n
  | real x => x.shortest
  | text s => Text.quoted s
  | sequence items => "[" ++ String.intercalate ", " (shownItems items) ++ "]"
  | record fields => "\x7b" ++ String.intercalate ", " (shownFields fields) ++ "\x7d"

/-- The texts of the items of a sequence. -/
def shownItems : List Setting → List String
  | [] => []
  | item :: rest => item.shown :: shownItems rest

/-- The texts of the fields of a record. -/
def shownFields : List (String × Setting) → List String
  | [] => []
  | (name, value) :: rest => (Text.quoted name ++ ": " ++ value.shown) :: shownFields rest

end

mutual

/-- The integers in the text of a setting. -/
def numbers : Setting → List Int
  | whole n => [n]
  | sequence items => itemNumbers items
  | record fields => fieldNumbers fields
  | _ => []

/-- The integers in the texts of the items of a sequence. -/
def itemNumbers : List Setting → List Int
  | [] => []
  | item :: rest => item.numbers ++ itemNumbers rest

/-- The integers in the texts of the fields of a record. -/
def fieldNumbers : List (String × Setting) → List Int
  | [] => []
  | (_, value) :: rest => value.numbers ++ fieldNumbers rest

end

end Setting

end RoundRobin
