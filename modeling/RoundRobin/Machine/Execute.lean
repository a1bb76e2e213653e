import RoundRobin.Machine

/-!
# Executing one instruction

What each instruction does for the process that executes it. An instruction that cannot do its work
says so in one complaint and does nothing else; the process goes on. Only the end of the input and
a path that cannot name any file end the operation.

A variable is bound in the next reserved slot of its process. A name is looked up in the whole
memory, from the lowest address on, except for writing to a file, which looks only at the reserved
slots of the process itself.
-/

namespace RoundRobin.Machine

open Operation

/-- A process says that its instruction could not do its work. -/
def complain (key : Int) (c : Complaint) : Operation Unit := do
  say (.complaint (← pidOf key) c)

/-- Reports a failed access to a file, or ends the operation if the path cannot name any file. -/
def fileFailed (key : Int) (fault : FileFault) : Operation Unit :=
  if fault.isReported then complain key (.file fault) else throw (.file fault)

/-- Binds a name to a value in the next reserved slot of a process. -/
def bindName (key : Int) (name value : String) : Operation Unit := do
  if Slot.isReservedName name then complain key (.reservedName name)
  else
    let p ← process key
    if Memory.reserved ≤ p.bound then complain key (.noSpace name)
    else
      writeSlot p.nextSlot ⟨name, value⟩
      amend key fun p => { p with bound := p.bound + 1 }

/-- Binds a name to the value that a source gives. -/
def assign (key : Int) (name : String) (source : Source) : Operation Unit := do
  match source with
  | .input =>
    let answer ← ask ("Please enter a value for " ++ name ++ ": ")
    bindName key name (Text.trimmed answer)
  | .literal value => bindName key name value
  | .file path =>
    match (← get).storage.firstLine path with
    | .ok line => bindName key name line
    | .error fault => fileFailed key fault

/-- Prints the value of a name. -/
def print (key : Int) (name : String) : Operation Unit := do
  match (← get).memory.find name with
  | some value => emit (.output key value)
  | none => complain key (.notFound name)

/-- The integer that a name stands for. -/
def integerOf? (m : Memory) (name : String) : Option Int := (m.find name).bind Integer.parse?

/-- The outputs of a process that prints all integers from one to another. -/
def rangeOutputs (key first last : Int) : List Event :=
  (List.range (last + 1 - first).toNat).map fun (i : Nat) => .output key (Integer.text (first + i))

/-- Prints all integers from the value of one name to the value of another. -/
def printFromTo (key : Int) (first last : String) : Operation Unit := do
  let memory := (← get).memory
  match integerOf? memory first, integerOf? memory last with
  | none, _ => complain key (.notInteger first)
  | some _, none => complain key (.notInteger last)
  | some low, some high => modify fun m => m.recordAll (rangeOutputs key low high)

/-- The text that a name stands for when a process writes it to a file: its own variable of that
name, or else the name itself. -/
def textOf (m : Memory) (p : ControlBlock) (name : String) : String :=
  match (m.findAddress name p.firstReserved (some p.upperBound)).bind m.slot? with
  | some s => s.value
  | none => name

/-- Writes what a name stands for to a file. -/
def writeFile (key : Int) (path name : String) : Operation Unit := do
  let p ← process key
  let m ← get
  match m.storage.write path (Text.encode (textOf m.memory p name).toList) with
  | .ok storage => set { m with storage }
  | .error fault => fileFailed key fault

/-- Sets the variable of a name to the first word of a file, if there is such a variable. -/
def readFile (key : Int) (path name : String) : Operation Unit := do
  if Slot.isReservedName name then complain key (.reservedName name)
  else
    let m ← get
    match m.storage.readText path with
    | .error fault => fileFailed key fault
    | .ok text =>
      match Text.words text with
      | [] => complain key (.nothingToRead path)
      | word :: _ =>
        match m.memory.addressOf name with
        | some address => writeSlot address ⟨name, String.ofList word⟩
        | none => pure ()

/-- Acquires a resource, or blocks the process on it. Tells whether it was acquired. -/
def semWait (key : Int) (r : Resource) : Operation Bool := do
  let acquired ← schedule fun s =>
    let (acquired, s) := s.semWait r key
    (.ok acquired, s)
  unless acquired do say (.blocked (← pidOf key) r)
  return acquired

/-- Releases a resource. -/
def semSignal (r : Resource) : Operation Unit := do
  match ← schedule fun s => s.semSignal r with
  | some woken => say (.woken (← pidOf woken) r)
  | none => pure ()

/-- Executes an instruction for a process. Tells whether the process may go on, that is, whether it
was not blocked. -/
def execute (key : Int) (i : Instruction) : Operation Bool := do
  match i with
  | .semWait r => semWait key r
  | .semSignal r => semSignal r; return true
  | .assign name source => assign key name source; return true
  | .print name => print key name; return true
  | .printFromTo first last => printFromTo key first last; return true
  | .writeFile path name => writeFile key path name; return true
  | .readFile path name => readFile key path name; return true
  | .unknown _ => return true

end RoundRobin.Machine
