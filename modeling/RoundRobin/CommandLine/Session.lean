import RoundRobin.CommandLine.Options
import RoundRobin.CommandLine.Prompt
import RoundRobin.Machine.Run

/-!
# A session

One call of the command line from its arguments to its end: the programs are read, the settings
that the arguments leave open are asked for, the programs are loaded and run, and the results are
handed over. The files, the input, everything shown and the service that pauses are values, so a
session is a function.
-/

namespace RoundRobin.CommandLine

/-- How a session ends. -/
inductive Ending where
  /-- The session came to its end with an exit code: 0 if all processes terminated, 2 if the run
  ended otherwise, 1 if it could not be started. -/
  | finished (code : Nat)
  | refused (refusal : Refusal)
  | failed (fault : Fault)
  deriving Repr

/-- What a session leaves behind. -/
structure Session where
  ending : Ending
  storage : Storage
  events : Array Event

/-- The lines of all programs, or the first failure to read one. -/
def readPrograms (storage : Storage) : List String → Except FileFault (List (List String))
  | [] => .ok []
  | path :: rest => do
    let lines ← storage.readLines path
    let later ← readPrograms storage rest
    return lines :: later

/-- The release times given, or those asked for. -/
def settleReleases (o : Options) (count : Nat) (inputs : List String) : Dialogue (List Int) :=
  match o.release with
  | some times => ⟨some times, [], inputs⟩
  | none => askIntegers ((List.range' 1 count).map releaseQuestion) inputs

/-- The quantum given, or the one asked for. -/
def settleQuantum (o : Options) (inputs : List String) : Dialogue Setting :=
  match o.quantum with
  | some (some n) => ⟨some (.whole n), [], inputs⟩
  | some none => ⟨some (.sequence []), [], inputs⟩
  | none => (askInteger quantumQuestion inputs).map .whole

/-- Loads programs with their release times. -/
def loadPrograms : List (List String × Int) → Operation Unit
  | [] => pure ()
  | (lines, release) :: rest => do
    let _ ← Machine.createProcess lines (.whole release)
    loadPrograms rest

/-- Runs the loaded programs and hands over the results. -/
def runPrograms (o : Options) : Operation Unit := do
  let _ ← Machine.run
  Machine.shutdown o.gantt o.csv

/-- The session of programs that are still to be loaded, from a machine without processes. A refused
request ends it with a notice, but not a request that cannot be told of. -/
def execute (o : Options) (programs : List (List String × Int)) (m : Machine) : Session :=
  match (loadPrograms programs).run m with
  | .error .numeralTooLong m => ⟨.failed .numeralTooLong, m.storage, m.log⟩
  | .error fault m => ⟨.finished 1, m.storage, (m.record (.notice (.refused fault))).log⟩
  | .ok _ m =>
    match (runPrograms o).run m with
    | .error fault m => ⟨.failed fault, m.storage, m.log⟩
    | .ok _ m => ⟨.finished (if m.allTerminated then 0 else 2), m.storage, m.log⟩

/-- The session of programs that have been read. -/
def configure (o : Options) (programs : List (List String)) (storage : Storage)
    (inputs : List String) (sleep : Sleep := .returning) : Session :=
  let releases := settleReleases o programs.length inputs
  match releases.answer with
  | none => ⟨.failed .endOfInput, storage, releases.events.toArray⟩
  | some times =>
    let quantum := settleQuantum o releases.rest
    let said := (releases.events ++ quantum.events).toArray
    match quantum.answer with
    | none => ⟨.failed .endOfInput, storage, said⟩
    | some q =>
      let size := o.memorySize.getD Memory.defaultSize
      match Machine.create? q size o.verbose o.delay storage quantum.rest sleep with
      | .error fault => ⟨.finished 1, storage, said.push (.notice (.refused fault))⟩
      | .ok m =>
        if o.memorySize.isNone then ⟨.failed .noMemorySize, storage, said⟩
        else execute o (programs.zip times) { m with log := said }

/-- The session of a command line that can be run. -/
def start (o : Options) (storage : Storage) (inputs : List String)
    (sleep : Sleep := .returning) : Session :=
  match readPrograms storage o.programs with
  | .error fault =>
    if fault.isReported then ⟨.finished 1, storage, #[.notice (.unreadableProgram fault)]⟩
    else ⟨.failed (.file fault), storage, #[]⟩
  | .ok programs =>
    match o.release with
    | some times =>
      if times.length = programs.length then configure o programs storage inputs sleep
      else
        ⟨.finished 1, storage, #[.notice (.releaseCount programs.length times.length)]⟩
    | none => configure o programs storage inputs sleep

/-- The session of the given arguments, files and lines of input. -/
def session (arguments : List String) (storage : Storage) (inputs : List String)
    (sleep : Sleep := .returning) : Session :=
  match Options.parse arguments with
  | .error .help => ⟨.refused .help, storage, #[.notice (.help help)]⟩
  | .error (.misuse misuse) =>
    ⟨.refused (.misuse misuse), storage, #[.diagnostic misuse.report]⟩
  | .ok o => start o storage inputs sleep

/-- The exit code of a session that ended without a fault. -/
def Ending.exitCode? : Ending → Option Nat
  | finished code => some code
  | refused .help => some 0
  | refused (.misuse _) => some 2
  | failed _ => none

end RoundRobin.CommandLine
