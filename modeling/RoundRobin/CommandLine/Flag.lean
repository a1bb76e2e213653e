/-!
# Flags

The options of the command line: how they are spelled, how many arguments they take, and how they
are named in messages. A long flag may be shortened as long as no other flag starts the same way.
-/

namespace RoundRobin.CommandLine

/-- An option of the command line. -/
inductive Flag where
  | help
  | quantum
  | release
  | memorySize
  | verbose
  | delay
  | gantt
  | csv
  deriving DecidableEq, Repr, Inhabited

/-- How many arguments a flag takes. -/
inductive Arity where
  | none
  | one
  | some
  deriving DecidableEq, Repr

namespace Flag

/-- The flags in the order in which they are listed. -/
def all : List Flag := [help, quantum, release, memorySize, verbose, delay, gantt, csv]

/-- The long spelling of a flag. -/
def long : Flag → String
  | help => "--help"
  | quantum => "--quantum"
  | release => "--release"
  | memorySize => "--memory-size"
  | verbose => "--verbose"
  | delay => "--delay"
  | gantt => "--gantt"
  | csv => "--csv"

/-- The only flag with a short spelling is the one for help. -/
def shortHelp : String := "-h"

/-- The name of a flag in messages. -/
def title : Flag → String
  | help => shortHelp ++ "/" ++ help.long
  | flag => flag.long

def arity : Flag → Arity
  | help | verbose => .none
  | release => .some
  | quantum | memorySize | delay | gantt | csv => .one

/-- The flag with exactly this spelling. -/
def spelled? (text : String) : Option Flag :=
  if text == shortHelp then Option.some help else all.find? fun flag => flag.long == text

/-- The flags whose long spelling starts like this. -/
def startingWith (text : String) : List Flag :=
  all.filter fun flag => text.toList.isPrefixOf flag.long.toList

end Flag

end RoundRobin.CommandLine
