import RoundRobin.CommandLine.Usage
import RoundRobin.Memory
import RoundRobin.Number.Decimal

/-!
# Reading the command line

The arguments are first told apart one by one: flags, possibly with an argument attached, operands,
and the separator, after which everything is an operand. Negative numbers and texts with spaces are
operands even if they start with a dash. Then the arguments are consumed from left to right. The
first run of operands that no flag takes names the programs; what is left over is a misuse, which
is reported only if nothing before it ended the reading.

A separator is dropped from what is given to a flag or names programs. So a flag with nothing but a
separator attached, such as `--quantum=--`, is given without a value. Not all versions of this convention
agree here: later ones keep a separator that is attached, which is then no numeral.
-/

namespace RoundRobin.CommandLine

/-- One argument of the command line. -/
inductive Argument where
  | operand (text : String)
  | separator
  | flag (flag : Flag) (attached : Option String)
  /-- The short flag for help with the characters after it. -/
  | shortHelp (tail : List Char)
  | unknown (text : String)
  deriving DecidableEq, Repr

/-- What a command line asks for. -/
structure Options where
  programs : List String
  /-- The quantum if it is given, and its value if there is one. -/
  quantum : Option (Option Int) := none
  release : Option (List Int) := none
  /-- The memory size, unless it is given without a value. -/
  memorySize : Option Int := some Memory.defaultSize
  verbose : Bool := false
  delay : Binary64 := .zero
  gantt : Option String := none
  csv : Option String := none
  deriving DecidableEq, Repr

/-- Why a command line is not run. -/
inductive Refusal where
  | help
  | misuse (misuse : Misuse)
  deriving DecidableEq, Repr

namespace Argument

def separatorText : String := "--"

/-- A text up to its first equals sign, and what follows the sign, if there is one. -/
def splitEquals : List Char → List Char × Option (List Char)
  | [] => ([], none)
  | c :: r =>
    if c = '=' then ([], some r)
    else
      let (before, after) := splitEquals r
      (c :: before, after)

/-- Whether a text without its dash is the numeral of a negative number, with digits of any script;
a line feed at its end is overlooked. -/
def isNegative (cs : List Char) : Bool :=
  let cs := if cs.getLast? = some '\n' then cs.dropLast else cs
  let isDigit := fun c => (Text.digitValue? c).isSome
  match cs.dropWhile isDigit with
  | [] => !cs.isEmpty
  | c :: places => c == '.' && !places.isEmpty && places.all isDigit

/-- An argument that starts with a dash and is spelled like no flag. -/
def ofOther (text : String) : Argument :=
  if isNegative (text.toList.drop 1) || text.toList.contains ' ' then operand text else unknown text

/-- The kind of an argument that stands before the separator and is not the separator. -/
def classify (text : String) : Except Misuse Argument :=
  match text.toList with
  | '-' :: '-' :: _ =>
    let (spelling, attached) := splitEquals text.toList
    let attached := attached.map String.ofList
    let spelling := String.ofList spelling
    match Flag.spelled? spelling with
    | some f => .ok (flag f attached)
    | none =>
      match Flag.startingWith spelling with
      | [] => .ok (ofOther text)
      | [f] => .ok (flag f attached)
      | candidates => .error (.ambiguous text candidates)
  | '-' :: 'h' :: tail => .ok (shortHelp tail)
  | '-' :: _ :: _ => .ok (ofOther text)
  | _ => .ok (operand text)

/-- The kinds of all arguments. -/
def classifyAll : List String → Except Misuse (List Argument)
  | [] => .ok []
  | text :: rest =>
    if text == separatorText then .ok (separator :: rest.map operand)
    else do
      let first ← classify text
      let later ← classifyAll rest
      return first :: later

def isOperand : Argument → Bool
  | operand _ => true
  | _ => false

/-- Whether an argument belongs to a run of operands. -/
def isPlain : Argument → Bool
  | operand _ | separator => true
  | _ => false

/-- The text of an operand, of the separator or of an unknown argument. -/
def text : Argument → String
  | operand text | unknown text => text
  | separator => separatorText
  | flag f _ => f.long
  | shortHelp _ => Flag.shortHelp

/-- What follows the short flag for help and is not this flag once more. -/
def afterHelps? : List Char → Option String
  | [] => none
  | c :: r => if c = 'h' then afterHelps? r else some (String.ofList (c :: r))

/-- The argument that wrongly follows the short flag for help, if there is one. The flag may be
repeated without another dash, after an equals sign too. -/
def needlessTail? : List Char → Option String
  | ['='] => some ""
  | '=' :: r => afterHelps? r
  | tail => afterHelps? tail

end Argument

namespace Options

/-- The files of the programs if none are named. -/
def defaultPrograms : List String := ["Program_1.txt", "Program_2.txt", "Program_3.txt"]

/-- The integers of some arguments, or the first argument that is none. -/
def wholes (f : Flag) : List String → Except Refusal (List Int)
  | [] => .ok []
  | text :: rest =>
    match Integer.parse? text with
    | none => .error (.misuse (.notWhole f text))
    | some n => do
      let ns ← wholes f rest
      return n :: ns

def whole (f : Flag) (text : String) : Except Refusal Int :=
  match Integer.parse? text with
  | none => .error (.misuse (.notWhole f text))
  | some n => .ok n

def real (f : Flag) (text : String) : Except Refusal Binary64 :=
  match Decimal.parse? text with
  | none => .error (.misuse (.notReal f text))
  | some x => .ok x

/-- The options with the argument of a flag that takes one. -/
def setOne (o : Options) (f : Flag) (text : String) : Except Refusal Options :=
  match f with
  | .quantum => return { o with quantum := some (some (← whole f text)) }
  | .release => return { o with release := some [← whole f text] }
  | .memorySize => return { o with memorySize := some (← whole f text) }
  | .delay => return { o with delay := ← real f text }
  | .gantt => .ok { o with gantt := some text }
  | .csv => .ok { o with csv := some text }
  | .verbose => .ok { o with verbose := true }
  | .help => .error .help

/-- The options with a flag that is given without a value. -/
def setEmpty (o : Options) : Flag → Options
  | .quantum => { o with quantum := some none }
  | .release => { o with release := some [] }
  | .memorySize => { o with memorySize := none }
  | .delay => { o with delay := .zero }
  | .gantt => { o with gantt := none }
  | .csv => { o with csv := none }
  | .help | .verbose => o

/-- The options with a flag and what is attached to it. -/
def setAttached (o : Options) (f : Flag) (text : String) : Except Refusal Options :=
  if text = Argument.separatorText then .ok (o.setEmpty f) else o.setOne f text

/-- The options with a flag that takes no argument. -/
def setNone (o : Options) (f : Flag) : Except Refusal Options :=
  match f with
  | .help => .error .help
  | .verbose => .ok { o with verbose := true }
  | _ => .ok o

end Options

/-- How far the arguments have been consumed. -/
structure Progress where
  options : Options := { programs := Options.defaultPrograms }
  /-- Whether the run of operands that names the programs has been met. -/
  named : Bool := false
  leftOver : List String := []

namespace Progress

/-- Takes a run of operands, which names the programs if it is the first one. An empty run names
none. -/
def takeOperands (p : Progress) (texts : List String) : Progress :=
  if p.named then { p with leftOver := p.leftOver ++ texts }
  else
    let programs := texts.erase Argument.separatorText
    let programs := if programs.isEmpty then Options.defaultPrograms else programs
    { p with options := { p.options with programs }, named := true }

/-- Takes a flag with what follows it, and gives the arguments still to be consumed. -/
def takeFlag (p : Progress) (f : Flag) (attached : Option String) (rest : List Argument) :
    Except Refusal (Progress × List Argument) :=
  match f.arity, attached with
  | .none, some text => .error (.misuse (.needlessArgument f text))
  | .none, none => return ({ p with options := ← p.options.setNone f }, rest)
  | _, some text => return ({ p with options := ← p.options.setAttached f text }, rest)
  | .one, none =>
    match rest with
    | .operand text :: rest => return ({ p with options := ← p.options.setOne f text }, rest)
    | _ => .error (.misuse (.missingArgument f))
  | .some, none =>
    match rest.takeWhile Argument.isOperand with
    | [] => .error (.misuse (.missingArguments f))
    | first :: later => do
      let ns ← Options.wholes f ((first :: later).map Argument.text)
      return ({ p with options := { p.options with release := some ns } },
        rest.dropWhile Argument.isOperand)

/-- Consumes arguments from left to right. Each round takes at least one, so as many rounds as
there are arguments suffice. -/
def consume : Nat → Progress → List Argument → Except Refusal Progress
  | _, p, [] => .ok p
  | 0, p, _ => .ok p
  | rounds + 1, p, argument :: rest =>
    match argument with
    | .operand _ | .separator =>
      let run := (argument :: rest).takeWhile Argument.isPlain
      consume rounds (p.takeOperands (run.map Argument.text)) (rest.dropWhile Argument.isPlain)
    | .unknown text => consume rounds { p with leftOver := p.leftOver ++ [text] } rest
    | .shortHelp tail =>
      match Argument.needlessTail? tail with
      | some text => .error (.misuse (.needlessArgument .help text))
      | none => .error .help
    | .flag f attached => do
      let (p, rest) ← p.takeFlag f attached rest
      consume rounds p rest

end Progress

/-- The options that the arguments of a command line give. -/
def Options.parse (arguments : List String) : Except Refusal Options :=
  match Argument.classifyAll arguments with
  | .error misuse => .error (.misuse misuse)
  | .ok classified => do
    let p ← Progress.consume classified.length {} classified
    if p.leftOver.isEmpty then return p.options
    else throw (.misuse (.unrecognized p.leftOver))

end RoundRobin.CommandLine
