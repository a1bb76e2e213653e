import RoundRobin.Resource
import RoundRobin.Text.Blank

/-!
# Instructions

One line of a program is one instruction. `decode` reads any line; a line that fits no form is an
unknown instruction, which does nothing. `render` writes an instruction as one line.

The forms, where blanks separate words and words beyond those named are ignored:

* `semWait` or `semSignal` and a resource;
* `assign` with a name and the rest of the line, which is the word `input`, or the word `readFile`
  and a path, or any other text, taken literally with the blanks inside it;
* `print` and a name; `printFromTo` and two names;
* `writeFile` or `readFile` with a path and a name.
-/

namespace RoundRobin

/-- Where the value of an assignment comes from. -/
inductive Source where
  | input
  | file (path : String)
  | literal (value : String)
  deriving DecidableEq, Repr, Inhabited

/-- What a line of a program asks for. -/
inductive Instruction where
  | semWait (resource : Resource)
  | semSignal (resource : Resource)
  | assign (name : String) (source : Source)
  | print (name : String)
  | printFromTo (first last : String)
  | writeFile (path name : String)
  | readFile (path name : String)
  | unknown (words : List String)
  deriving DecidableEq, Repr, Inhabited

namespace Instruction

/-- The source that an assignment names: `value` is the rest of its line and `words` are the words
of that rest. -/
def sourceOf (value : String) (words : List String) : Source :=
  match words with
  | first :: path :: _ =>
    if first = "readFile" then .file path else .literal value
  | _ => if value = "input" then .input else .literal value

/-- The instruction of a line with the given words; `value` is what follows the first two. -/
def ofWords (value : String) : List String → Instruction
  | op :: a :: rest =>
    if op = "semWait" then
      match Resource.ofName? a with
      | some r => .semWait r
      | none => .unknown (op :: a :: rest)
    else if op = "semSignal" then
      match Resource.ofName? a with
      | some r => .semSignal r
      | none => .unknown (op :: a :: rest)
    else if op = "print" then .print a
    else
      match rest with
      | b :: _ =>
        if op = "assign" then .assign a (sourceOf value rest)
        else if op = "printFromTo" then .printFromTo a b
        else if op = "writeFile" then .writeFile a b
        else if op = "readFile" then .readFile a b
        else .unknown (op :: a :: rest)
      | [] => .unknown [op, a]
  | ws => .unknown ws

/-- The instruction that a line stands for. -/
def decode (line : String) : Instruction :=
  ofWords (String.ofList (Text.afterWords 2 (Text.trim line.toList))) (Text.wordsOf line)

/-- The words of a source in a line. -/
def sourceWords : Source → List String
  | .input => ["input"]
  | .file path => ["readFile", path]
  | .literal value => [value]

/-- The name of the form of an instruction. -/
def opcode : Instruction → String
  | semWait _ => "semWait"
  | semSignal _ => "semSignal"
  | assign .. => "assign"
  | print _ => "print"
  | printFromTo .. => "printFromTo"
  | writeFile .. => "writeFile"
  | readFile .. => "readFile"
  | unknown _ => "unknown"

/-- The arguments of an instruction in order: those of an assignment are its name, the kind of its
source, and the path or value, which input lacks. -/
def arguments : Instruction → List (Option String)
  | semWait r | semSignal r => [some r.name]
  | assign name .input => [some name, some "input", none]
  | assign name (.file path) => [some name, some "file", some path]
  | assign name (.literal value) => [some name, some "literal", some value]
  | print name => [some name]
  | printFromTo a b | writeFile a b | readFile a b => [some a, some b]
  | unknown ws => ws.map some

/-- The words of a line that stands for an instruction. The words of a literal value count as
one. -/
def words (i : Instruction) : List String :=
  match i with
  | semWait r | semSignal r => [i.opcode, r.name]
  | assign name source => i.opcode :: name :: sourceWords source
  | print name => [i.opcode, name]
  | printFromTo a b | writeFile a b | readFile a b => [i.opcode, a, b]
  | unknown ws => ws

/-- A line that stands for an instruction. -/
def render (i : Instruction) : String := String.intercalate " " i.words

end Instruction

end RoundRobin
