import RoundRobin.CommandLine.Flag
import RoundRobin.Text.Quoted

/-!
# Usage

The texts that explain the command line, and the messages about its misuse. A message follows the
summary of the usage.
-/

namespace RoundRobin.CommandLine

/-- What is wrong with a command line. -/
inductive Misuse where
  | ambiguous (given : String) (candidates : List Flag)
  | missingArgument (flag : Flag)
  | missingArguments (flag : Flag)
  | needlessArgument (flag : Flag) (argument : String)
  | notWhole (flag : Flag) (argument : String)
  | notReal (flag : Flag) (argument : String)
  | unrecognized (arguments : List String)
  deriving DecidableEq, Repr

namespace Misuse

/-- What is wrong about one flag. -/
def about (flag : Flag) (text : String) : String := "argument " ++ flag.title ++ ": " ++ text

def message : Misuse → String
  | ambiguous given candidates =>
    "ambiguous option: " ++ given ++ " could match "
      ++ String.intercalate ", " (candidates.map Flag.long)
  | missingArgument flag => about flag "expected one argument"
  | missingArguments flag => about flag "expected at least one argument"
  | needlessArgument flag argument =>
    about flag ("ignored explicit argument " ++ Text.quoted argument)
  | notWhole flag argument => about flag ("invalid int value: " ++ Text.quoted argument)
  | notReal flag argument => about flag ("invalid float value: " ++ Text.quoted argument)
  | unrecognized arguments => "unrecognized arguments: " ++ String.intercalate " " arguments

end Misuse

def programName : String := "os-simulator"

/-- The summary of the command line, by lines. -/
def usageLines : List String :=
  ["usage: os-simulator [-h] [--quantum QUANTUM] [--release RELEASE [RELEASE ...]]",
   "                    [--memory-size MEMORY_SIZE] [--verbose] [--delay DELAY]",
   "                    [--gantt PNG] [--csv CSV]",
   "                    [programs ...]"]

/-- The explanation that follows the summary, by lines. -/
def explanationLines : List String :=
  ["",
   "Round robin OS simulator with resource semaphores",
   "",
   "positional arguments:",
   "  programs              program files, one process each (default:",
   "                        Program_1.txt .. Program_3.txt)",
   "",
   "options:",
   "  -h, --help            show this help message and exit",
   "  --quantum QUANTUM     instructions per time slice",
   "  --release RELEASE [RELEASE ...]",
   "                        release time of each program",
   "  --memory-size MEMORY_SIZE",
   "                        memory slots",
   "  --verbose             trace instructions, memory and queues",
   "  --delay DELAY         real seconds to wait per instruction",
   "  --gantt PNG           save a Gantt chart",
   "  --csv CSV             save per-process results"]

/-- Lines, each ended by a line feed. -/
def joinLines (lines : List String) : String := String.join (lines.map (· ++ "\n"))

/-- The summary of the command line. -/
def usage : String := joinLines usageLines

/-- The explanation of the command line. -/
def help : String := joinLines (usageLines ++ explanationLines)

/-- What is written about a misuse. -/
def Misuse.report (m : Misuse) : String :=
  usage ++ programName ++ ": error: " ++ m.message ++ "\n"

end RoundRobin.CommandLine
