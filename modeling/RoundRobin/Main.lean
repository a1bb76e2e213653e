import RoundRobin.CommandLine.Session

/-!
# The program

Runs a session on real files and a real console. A session is a function of its arguments, the
files and the input, so the files that its arguments and programs can name are collected first.
The input is read line by line: whenever a session ends for want of input, one more line is read
and the session is computed again. What it did before is the same again, and only what is new is
shown. At the end the files that it changed are written.
-/

namespace RoundRobin.Program

open CommandLine

/-- Why a real file cannot be opened to be written at its end, if it is there and this is denied. -/
def denialOf? (path : String) : IO (Option Denial) := do
  try
    let _ ← IO.FS.Handle.mk path IO.FS.Mode.append
    return none
  catch
    | .permissionDenied _ code details => return some ⟨code.toNat, details⟩
    | _ => return none

/-- What really stands at a path that leads to no directory, if anything does. -/
def entryOf? (path : String) : IO (Option Entry) := do
  try
    let content := (← IO.FS.readBinFile path).toList
    match ← denialOf? path with
    | some denial => return some (.readOnly content denial)
    | none => return some (.file content)
  catch
    | .permissionDenied _ code details => return some (.closed ⟨code.toNat, details⟩)
    | _ => return none

/-- Whether a path leads to a real directory. -/
def isDirectory (path : String) : IO Bool := do
  try
    let _ ← IO.FS.Handle.mk (path ++ "/.") IO.FS.Mode.read
    return true
  catch _ => return false

/-- A path up to each of its strokes, the shortest first. -/
def ancestors (path : String) : List String :=
  let cs := path.toList
  ((List.range cs.length).filter fun n => cs[n]? == some '/').map fun n => String.ofList (cs.take n)

/-- The storage with what stands at a path. -/
def addEntry (s : Storage) (path : String) (entry : Entry) : Storage :=
  match s.locate path (Place.steps path) with
  | .ok place => if place.isAbove then s else s.put place entry
  | .error _ => s

/-- The storage with what really stands at a path and on the way to it. -/
def collect (s : Storage) (path : String) : IO Storage := do
  let mut s := s
  for ancestor in ancestors path do
    if ← isDirectory ancestor then s := addEntry s ancestor .directory
  if ← isDirectory path then return addEntry s path .directory
  match ← entryOf? path with
  | some entry => return addEntry s path entry
  | none => return s

/-- The paths that the instructions of a program can name: any of its words. -/
def pathsIn (content : Text.Bytes) : List String :=
  (Text.words (Text.decode content).chars).map String.ofList

/-- The real files that a session can reach. -/
def collectAll (arguments : List String) : IO Storage := do
  let mut s : Storage := {}
  for path in arguments ++ Options.defaultPrograms do
    s ← collect s path
    let afterEquals := (Argument.splitEquals path.toList).2
    if let some value := afterEquals then s ← collect s (String.ofList value)
  for (_, entry) in s.entries do
    if let .file content := entry then
      for path in pathsIn content do
        s ← collect s path
  return s

/-- Writes the files of one storage that another does not hold like this. -/
def writeChanges (before after : Storage) : IO Unit := do
  for (place, entry) in after.entries do
    if let .file content := entry then
      unless before.entryAt place = some entry do
        IO.FS.writeBinFile place.path (ByteArray.mk content.toArray)

/-- The length of a pause in thousandths of a second. -/
def thousandths : Binary64 → Nat
  | .finite false m e => Binary64.placeCount 3 m e
  | _ => 0

/-- A chart as text: a line for its title and a line for each bar. -/
def chartText (c : Chart) : String :=
  joinLines (c.title :: c.bars.map fun b =>
    c.rowLabels.getD b.row "" ++ ": " ++ Integer.text b.start ++ "-" ++ Integer.text b.stop)

/-- Does an event to the console, the clock on the wall or the file of a chart. -/
def perform (e : Event) : IO Unit := do
  match e.shown?, e with
  | some (.output, text), _ =>
    IO.print text
    (← IO.getStdout).flush
  | some (.error, text), _ => IO.eprint text
  | none, .pause length => IO.sleep (thousandths length).toUInt32
  | none, .chart c => IO.FS.writeFile c.filename (chartText c)
  | none, _ => pure ()

/-- Runs a session with the input read so far, and again as long as it needs more and there is
more. The last argument counts the events that were already shown. -/
partial def serve (arguments : List String) (storage : Storage) (inputs : List String)
    (shown : Nat) : IO Session := do
  let s := session arguments storage inputs .real
  for e in s.events.toList.drop shown do
    perform e
  match s.ending with
  | .failed .endOfInput =>
    let line ← (← IO.getStdin).getLine
    if line.isEmpty then return s
    serve arguments storage (inputs ++ Text.linesOf line) s.events.size
  | _ => return s

/-- Runs a session and gives its exit code; a fault that ended it is shown and counts as one. -/
def run (arguments : List String) : IO UInt32 := do
  let storage ← collectAll arguments
  let s ← serve arguments storage [] 0
  writeChanges storage s.storage
  match s.ending with
  | .failed fault =>
    IO.eprintln fault.message
    return 1
  | ending => return (ending.exitCode?.getD 1).toUInt32

end RoundRobin.Program

def main (arguments : List String) : IO UInt32 := RoundRobin.Program.run arguments
