import RoundRobin.Metrics.Chart

/-!
# Events

What the system does to the outside, in order: it writes notices to the console, hands over what
programs print, asks for input, pauses between instructions, and draws charts. The text of a notice
is fixed here and nowhere else.
-/

namespace RoundRobin

/-- Why an instruction could not do its work. It has then changed nothing. -/
inductive Complaint where
  | reservedName (name : String)
  | noSpace (name : String)
  | notFound (name : String)
  | notInteger (name : String)
  | nothingToRead (path : String)
  | file (fault : FileFault)
  deriving DecidableEq, Repr

namespace Complaint

/-- Failures outside the simulation are errors, all others are warnings. -/
def severity : Complaint → String
  | file _ => "[ERROR]"
  | _ => "[WARN]"

def message : Complaint → String
  | reservedName name => "'" ++ name ++ "' is not a valid variable name"
  | noSpace name => "No space left for the variable '" ++ name ++ "'"
  | notFound name => "variable '" ++ name ++ "' not found"
  | notInteger name => "printFromTo skipped, '" ++ name ++ "' is not a known integer"
  | nothingToRead path => "file '" ++ path ++ "' is empty"
  | file fault => fault.message

end Complaint

/-- A message on the console. -/
inductive Notice where
  | loaded (pid first last release : Int)
  | started (quantum : Int)
  | promoted (pid now : Int)
  | dispatched (pid now : Int)
  | executing (now pid pc : Int) (line : String)
  | blocked (pid : Int) (resource : Resource)
  | woken (pid : Int) (resource : Resource)
  | terminated (pid time : Int)
  | complaint (pid : Int) (complaint : Complaint)
  | deadlocked (now : Int) (waiters : List (Int × Resource))
  | stopped (steps : Nat) (now : Int)
  /-- The memory or the queues laid out as a table. -/
  | dump (text : String)
  | report (text : String)
  | chartSaved (filename : String)
  | resultsSaved (filename : String)
  | invalidAnswer (answer : String)
  | unreadableProgram (fault : FileFault)
  | releaseCount (expected given : Nat)
  | refused (fault : Fault)
  /-- The explanation of the command line. -/
  | help (text : String)
  deriving Repr

namespace Notice

/-- A process and the resource that it waits for. -/
def waiterText (waiter : Int × Resource) : String :=
  "PID " ++ Integer.text waiter.1 ++ " on '" ++ waiter.2.name ++ "'"

/-- The text of a notice, with the line feed at its end. -/
def text : Notice → String
  | loaded pid first last release =>
    "[LOAD] PID " ++ Integer.text pid ++ " loaded at " ++ Integer.text first ++ "-"
      ++ Integer.text last ++ ". Release time: " ++ Integer.text release ++ "\n"
  | started quantum => "Starting Simulation | Algo: RR | Quantum: " ++ Integer.text quantum ++ "\n"
  | promoted pid now =>
    "[PROMOTE] PID " ++ Integer.text pid ++ " ready at time " ++ Integer.text now ++ "\n"
  | dispatched pid now =>
    "[DISPATCH] PID " ++ Integer.text pid ++ " at time " ++ Integer.text now ++ "\n"
  | executing now pid pc line =>
    "[EXEC] t=" ++ Integer.text now ++ " PID " ++ Integer.text pid ++ " @" ++ Integer.text pc
      ++ ": " ++ line ++ "\n"
  | blocked pid resource =>
    "[BLOCK] PID " ++ Integer.text pid ++ " waiting on '" ++ resource.name ++ "'\n"
  | woken pid resource =>
    "[UNBLOCK] PID " ++ Integer.text pid ++ " released from '" ++ resource.name ++ "'\n"
  | terminated pid time =>
    "[TERMINATE] PID " ++ Integer.text pid ++ " at time " ++ Integer.text time ++ "\n"
  | complaint pid c => c.severity ++ " PID " ++ Integer.text pid ++ ": " ++ c.message ++ "\n"
  | deadlocked now waiters =>
    "[DEADLOCK] at time " ++ Integer.text now ++ ": "
      ++ String.intercalate ", " (waiters.map waiterText) ++ "\n"
  | stopped steps now =>
    "[WARN] Stopped after " ++ Integer.text steps ++ " steps at time " ++ Integer.text now ++ "\n"
  | dump text | report text | help text => text
  | chartSaved filename => "[INFO] Gantt chart saved to '" ++ filename ++ "'\n"
  | resultsSaved filename => "[INFO] Results exported to '" ++ filename ++ "'\n"
  | invalidAnswer answer =>
    "Invalid input '" ++ answer ++ "'. Please enter an integer.\n"
  | unreadableProgram fault => "[ERROR] Failed to open program: " ++ fault.message ++ "\n"
  | releaseCount expected given =>
    "[ERROR] Expected " ++ Integer.text expected ++ " release times, got " ++ Integer.text given
      ++ "\n"
  | refused fault => "[ERROR] " ++ fault.message ++ "\n"

end Notice

/-- Something done to the outside. -/
inductive Event where
  | notice (notice : Notice)
  /-- A text that the program of the process under a key prints. -/
  | output (key : Int) (text : String)
  /-- A request for one line of input. -/
  | prompt (message : String)
  /-- A pause of so many seconds. -/
  | pause (seconds : Binary64)
  | chart (chart : Chart)
  /-- A message about a misuse of the command line. -/
  | diagnostic (text : String)
  deriving Repr

/-- Where a text is shown to the one who runs the system. -/
inductive Channel where
  | output
  | error
  deriving DecidableEq, Repr

/-- How an event is shown if programs share the console with the system: a printed text takes a
line, a question is left open for the answer. -/
def Event.shown? : Event → Option (Channel × String)
  | notice n => some (.output, n.text)
  | output _ text => some (.output, text ++ "\n")
  | prompt message => some (.output, message)
  | diagnostic text => some (.error, text)
  | pause _ | chart _ => none

end RoundRobin
