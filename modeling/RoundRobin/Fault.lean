import RoundRobin.Setting
import RoundRobin.Storage.Fault

/-!
# Faults

What can end an operation before its time. Faults of configuration and of loading refuse a request;
the others name something that is not there, or come from outside.

An integer with too many digits has no numeral, so a text that names it cannot be written. This goes
for the message of a fault too, which then says only that (`Fault.message`), and for every other
text that names an integer given from outside (`written`).
-/

namespace RoundRobin

/-- The reason why an operation did not complete. -/
inductive Fault where
  /-- The quantum given is not a positive integer. -/
  | badQuantum (given : Setting)
  /-- The release time given is not a natural number. -/
  | badRelease (given : Setting)
  /-- The memory size given is not positive. -/
  | badMemorySize (size : Int)
  /-- No memory size is given where one is asked for. -/
  | noMemorySize
  /-- A program with its reserved slots lies outside the memory. -/
  | doesNotFit (count : Nat) (first last : Int) (size : Nat)
  | badAddress (address : Int)
  | unknownProcess (pid : Int)
  | unknownResource (name : String)
  /-- A burst was asked for while no process has the processor. -/
  | idleProcessor
  /-- A process ended without having been started. -/
  | neverStarted
  | endOfInput
  /-- A run comes to no end. -/
  | unending
  /-- A quotient of integers is too large for a binary64 number. -/
  | quotientTooLarge
  /-- An integer is too large for a binary64 number. -/
  | integerTooLarge
  /-- An integer has more digits than a numeral may have. -/
  | numeralTooLong
  /-- A pause of less than no time was asked for. -/
  | negativeDelay
  /-- A pause was asked for that is not a number of seconds. -/
  | undefinedDelay
  /-- A pause was asked for that is too long to be measured. -/
  | delayOutOfRange
  | file (fault : FileFault)
  deriving Repr

namespace Fault

/-- Whether a fault can be that of a pause that was refused. -/
def isPause : Fault → Bool
  | negativeDelay | undefinedDelay | delayOutOfRange | integerTooLarge => true
  | _ => false

/-- The numbers that the message of a fault names. -/
def numbers : Fault → List Int
  | badQuantum given | badRelease given => given.numbers
  | badMemorySize size => [size]
  | doesNotFit count first last size => [count, first, last, size]
  | badAddress address => [address]
  | _ => []

/-- Whether all numbers in the message of a fault can be written. -/
def isWritable (f : Fault) : Bool := f.numbers.all Integer.isWritable

/-- What a fault says. -/
def wording : Fault → String
  | badQuantum given =>
    "The process can't have zero or less quantum (got " ++ given.shown ++ ")"
  | badRelease given =>
    "Release time must be a non-negative integer, got " ++ given.shown
  | badMemorySize size => "Memory size must be positive, got " ++ Integer.text size
  | noMemorySize => "'<=' not supported between instances of 'list' and 'int'"
  | doesNotFit count first last size =>
    "Program of " ++ Integer.text count ++ " instructions needs slots " ++ Integer.text first ++ "-"
      ++ Integer.text last ++ ", memory has " ++ Integer.text size
  | badAddress address => "Memory address " ++ Integer.text address ++ " out of bounds"
  | unknownProcess pid => Integer.text pid
  | unknownResource name => Text.quoted name
  | idleProcessor => "None"
  | neverStarted => "unsupported operand type(s) for -: 'NoneType' and 'int'"
  | endOfInput => "EOF when reading a line"
  | unending => "the run comes to no end"
  | quotientTooLarge => "integer division result too large for a float"
  | integerTooLarge => "int too large to convert to float"
  | numeralTooLong => Integer.tooLongMessage
  | negativeDelay => "sleep length must be non-negative"
  | undefinedDelay => "Invalid value NaN (not a number)"
  | delayOutOfRange => "timestamp out of range for platform time_t"
  | file fault => fault.message

/-- The message of a fault, which can only say so if one of its numbers has too many digits. -/
def message (f : Fault) : String := if f.isWritable then f.wording else Integer.tooLongMessage

end Fault

/-- A text that names some numbers, which can be written only if none of them has too many digits. -/
def written (numbers : List Int) (text : String) : Except Fault String :=
  if numbers.all Integer.isWritable then .ok text else .error .numeralTooLong

/-- The results up to the first fault, and the fault if there is one. -/
def upToFault {α : Type} : List (Except Fault α) → List α × Except Fault Unit
  | [] => ([], .ok ())
  | .error fault :: _ => ([], .error fault)
  | .ok a :: rest =>
    let (found, outcome) := upToFault rest
    (a :: found, outcome)

end RoundRobin
