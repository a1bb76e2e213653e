import RoundRobin.Storage.Fault
import RoundRobin.Storage.Place
import RoundRobin.Text.Reading

/-!
# Storage

The files that programs read and write, as a value: a directory tree given by its entries. Opening
a path fails for the reasons a file system gives, checked in its order: a path no file can have,
an empty or overlong path, a step from something that is no directory, an overlong name, and at
last what stands at the end of the path. Some files cannot be written, and some things cannot be
opened at all, each for a reason of its own.

What is written is read back (`entryAt_put`), and writing changes no other place.
-/

namespace RoundRobin

/-- What stands at a place. -/
inductive Entry where
  | directory
  | file (content : Text.Bytes)
  /-- A file that can be read but not written. -/
  | readOnly (content : Text.Bytes) (denial : Denial)
  /-- Something that can be neither entered nor read nor written. -/
  | closed (denial : Denial)
  deriving DecidableEq, Repr, Inhabited

/-- The entries of a directory tree, each place at most once. -/
structure Storage where
  entries : List (Place × Entry) := []
  deriving DecidableEq, Repr, Inhabited

namespace Storage

/-- The greatest length of a name, in bytes. -/
def maxName : Nat := 255

/-- The length, in bytes, that a path must stay below. -/
def pathLimit : Nat := 4096

/-- What stands at a place, if anything does. -/
def entryAt (s : Storage) (place : Place) : Option Entry :=
  if place.isAbove then some .directory
  else (s.entries.find? fun e => e.1 == place).map Prod.snd

/-- The entries with the one for a place set. -/
def setEntry (place : Place) (entry : Entry) : List (Place × Entry) → List (Place × Entry)
  | [] => [(place, entry)]
  | e :: rest => if e.1 == place then (place, entry) :: rest else e :: setEntry place entry rest

/-- The storage with another entry at a place. -/
def put (s : Storage) (place : Place) (entry : Entry) : Storage :=
  ⟨setEntry place entry s.entries⟩

/-- Follows the steps of a path. Every step starts from a directory; the place reached last need
not exist. -/
def walk (s : Storage) (path : String) (place : Place) : List String → Except FileFault Place
  | [] => .ok place
  | step :: rest =>
    match s.entryAt place with
    | none => .error (.missing path)
    | some (.file _) | some (.readOnly ..) => .error (.notDirectory path)
    | some (.closed denial) => .error (.denied path denial)
    | some .directory =>
      if step == "" || step == "." then s.walk path place rest
      else if step == ".." then s.walk path place.parent rest
      else if maxName < step.utf8ByteSize then .error (.nameTooLong path)
      else s.walk path (place.child step) rest

/-- The place at the end of the given steps of a path. -/
def locate (s : Storage) (path : String) (steps : List String) : Except FileFault Place :=
  if path.toList.contains (Char.ofNat 0) then .error .nullInPath
  else if path.isEmpty then .error (.missing path)
  else if pathLimit ≤ path.utf8ByteSize then .error (.nameTooLong path)
  else s.walk path (Place.start path) steps

/-- The content of the file at a path. -/
def read (s : Storage) (path : String) : Except FileFault Text.Bytes := do
  let place ← s.locate path (Place.steps path)
  match s.entryAt place with
  | some (.file content) | some (.readOnly content _) => return content
  | some .directory => throw (.isDirectory path)
  | some (.closed denial) => throw (.denied path denial)
  | none => throw (.missing path)

/-- The place of the file that is made or replaced by writing to a path. A path that ends in a
stroke asks for a directory, which cannot be written, whatever its last name is. -/
def target (s : Storage) (path : String) : Except FileFault Place := do
  let steps := Place.steps path
  if steps.getLast? = some "" then
    let _ ← s.locate path (Place.wayTo steps)
    throw (.isDirectory path)
  else
    let place ← s.locate path steps
    match s.entryAt place with
    | some .directory => throw (.isDirectory path)
    | some (.readOnly _ denial) | some (.closed denial) => throw (.denied path denial)
    | some (.file _) | none => return place

/-- The storage after writing a file. -/
def write (s : Storage) (path : String) (content : Text.Bytes) : Except FileFault Storage := do
  let place ← s.target path
  return s.put place (.file content)

/-- The first line of the file at a path; an empty file has none. -/
def firstLine (s : Storage) (path : String) : Except FileFault String := do
  let content ← s.read path
  match Text.readFirstLine content with
  | .error flaw => throw (.undecodable flaw)
  | .ok none => throw (.empty path)
  | .ok (some line) => return String.ofList line

/-- All lines of the file at a path. -/
def readLines (s : Storage) (path : String) : Except FileFault (List String) := do
  let content ← s.read path
  match Text.readLines content with
  | .error flaw => throw (.undecodable flaw)
  | .ok lines => return lines.map String.ofList

/-- The whole text of the file at a path. -/
def readText (s : Storage) (path : String) : Except FileFault (List Char) := do
  let content ← s.read path
  match Text.readWhole content with
  | .error flaw => throw (.undecodable flaw)
  | .ok text => return text

/-- The storage with the directories on the way to a place. -/
def makeParents (s : Storage) (place : Place) : Storage :=
  (List.range' 1 (place.length - 1)).foldl (fun s n => s.put (place.take n) .directory) s

/-- The storage with an entry at the end of a path of plain names, and the directories on the
way. -/
def install (s : Storage) (path : String) (entry : Entry) : Storage :=
  let place := (Place.steps path).filter fun step => !(step == "" || step == ".")
  (s.makeParents place).put place entry

/-- The files below the working directory with their paths, in the order of the paths. -/
def files (s : Storage) : List (String × Text.Bytes) :=
  let found := s.entries.filterMap fun (place, entry) =>
    match entry with
    | .file content | .readOnly content _ =>
      if place.head? = some ".." ∨ place.head? = some "/" then none else some (place.path, content)
    | .directory | .closed _ => none
  found.mergeSort fun a b => decide (a.1 ≤ b.1)

/-! ### Entries after a change -/

theorem find?_setEntry (place other : Place) (entry : Entry) (entries : List (Place × Entry)) :
    ((setEntry place entry entries).find? fun e => e.1 == other)
      = if other = place then some (place, entry) else entries.find? fun e => e.1 == other := by
  induction entries with
  | nil =>
    by_cases h : other = place
    · simp [setEntry, h]
    · simp [setEntry, h, show ¬place = other from fun e => h e.symm]
  | cons e rest ih =>
    unfold setEntry
    by_cases same : e.1 = place
    · by_cases h : other = place
      · simp [same, h]
      · simp [same, h, show ¬place = other from fun e => h e.symm]
    · by_cases h : e.1 = other
      · simp [h, show ¬other = place from h ▸ same]
      · simp [same, h, ih]

theorem entryAt_put (s : Storage) {place : Place} (below : place.isAbove = false) (entry : Entry)
    (other : Place) :
    (s.put place entry).entryAt other
      = if other = place then some entry else s.entryAt other := by
  unfold entryAt put
  by_cases h : other = place
  · subst h
    simp [below, find?_setEntry]
  · by_cases above : other.isAbove = true
    · simp [above, h]
    · simp [above, h, find?_setEntry]

end Storage

end RoundRobin
