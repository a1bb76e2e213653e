import RoundRobin.Text.Line

/-!
# Paths and places

A path is a text that leads, step by step, from the working directory or from the root of all
directories to a place. A place is the list of names on the way to it; going up from the working
directory leads to the places named by `..`, and the root is the place `/`.
-/

namespace RoundRobin

/-- Where a file or directory is. -/
abbrev Place := List String

namespace Place

/-- The working directory. -/
def here : Place := []

/-- The root of all directories. -/
def root : Place := ["/"]

/-- Whether a place is the working directory or lies above it; these are directories in any
case. -/
def isAbove (p : Place) : Bool := p == root || p.all (· == "..")

/-- The directory that a place is in. -/
def parent (p : Place) : Place :=
  if p == root then root else if p.all (· == "..") then p ++ [".."] else p.dropLast

/-- The place of a name in a directory. -/
def child (p : Place) (name : String) : Place := p ++ [name]

/-- The path from the working directory to a place below it. -/
def path (p : Place) : String := String.intercalate "/" p

/-- The parts of a path between its strokes, empty ones among them. -/
def splitPath : List Char → List (List Char)
  | [] => [[]]
  | c :: r => if c = '/' then [] :: splitPath r else Text.extendFirst c (splitPath r)

/-- The steps of a path. -/
def steps (path : String) : List String := (splitPath path.toList).map String.ofList

/-- The steps to the directory that holds the last name, ended by a step that stays there. -/
def wayTo (steps : List String) : List String :=
  ((steps.reverse.dropWhile (· == "")).drop 1).reverse ++ ["."]

/-- The place that a path starts from. -/
def start (path : String) : Place := if path.toList.head? = some '/' then root else here

end Place

end RoundRobin
