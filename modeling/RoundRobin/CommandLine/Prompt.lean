import RoundRobin.Event

/-!
# Asking for integers

A question is repeated until it is answered by the numeral of an integer; every other answer is
quoted back. The answers are consumed in order, up to and including the first one accepted.
-/

namespace RoundRobin.CommandLine

/-- The end of a dialogue: the answer, or none if the input ended before; what was said; and the
input that is left. -/
structure Dialogue (α : Type) where
  answer : Option α
  events : List Event
  rest : List String

/-- The same dialogue with the answer seen in another way. -/
def Dialogue.map {α β : Type} (f : α → β) (d : Dialogue α) : Dialogue β :=
  ⟨d.answer.map f, d.events, d.rest⟩

/-- Asks until an integer is given. -/
def askInteger (message : String) : List String → Dialogue Int
  | [] => ⟨none, [.prompt message], []⟩
  | answer :: rest =>
    match Integer.parse? answer with
    | some n => ⟨some n, [.prompt message], rest⟩
    | none =>
      let later := askInteger message rest
      { later with events := .prompt message :: .notice (.invalidAnswer answer) :: later.events }

/-- Asks several questions in turn, up to the first that is not answered. -/
def askIntegers : List String → List String → Dialogue (List Int)
  | [], inputs => ⟨some [], [], inputs⟩
  | message :: messages, inputs =>
    let first := askInteger message inputs
    match first.answer with
    | none => ⟨none, first.events, first.rest⟩
    | some n =>
      let later := askIntegers messages first.rest
      ⟨later.answer.map (n :: ·), first.events ++ later.events, later.rest⟩

/-- The question for the release time of a program, counted from one. -/
def releaseQuestion (number : Nat) : String :=
  "Enter release time for program " ++ Integer.text number ++ ": "

def quantumQuestion : String := "Enter quantum time for The OS : "

end RoundRobin.CommandLine
