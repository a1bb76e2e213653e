import RoundRobin.Fault
import RoundRobin.Instruction

/-!
# Memory

The simulated memory: a fixed number of slots, each with a name and a value. A slot named
`Instruction` holds one line of a program, a slot named `Free` is reserved for a variable, and a
slot with any other name holds the variable of that name. A program is loaded as its lines followed
by `reserved` free slots.

Addresses are integers; those outside the memory are refused by `read?` and `write?`, and searches
are cut to the memory. A write changes no other slot (`slot?_write`).
-/

namespace RoundRobin

/-- One cell of memory. -/
structure Slot where
  name : String := ""
  value : String := ""
  deriving DecidableEq, Repr, Inhabited

namespace Slot

def instructionName : String := "Instruction"

def freeName : String := "Free"

/-- The names that no variable may have. -/
def isReservedName (name : String) : Bool := name == instructionName || name == freeName

/-- The slot of a line of a program. -/
def ofLine (line : String) : Slot := ⟨instructionName, line⟩

/-- A slot kept for a variable. -/
def free : Slot := ⟨freeName, ""⟩

/-- The instruction that a slot holds. -/
def instruction? (s : Slot) : Option Instruction :=
  if s.name = instructionName then some (Instruction.decode s.value) else none

def isInstruction (s : Slot) : Bool := s.name == instructionName

/-- The text of a slot in messages. -/
def shown (s : Slot) : String :=
  "MemorySlot(" ++ Text.quoted s.name ++ ", " ++ Text.quoted s.value ++ ")"

end Slot

/-- The slots by address, counted from zero. -/
structure Memory where
  slots : Array Slot
  deriving DecidableEq, Repr, Inhabited

namespace Memory

/-- The number of slots kept for the variables of each program. -/
def reserved : Nat := 3

/-- The size of a memory for which none is asked. -/
def defaultSize : Int := 60

def size (m : Memory) : Nat := m.slots.size

/-- A memory of unused slots. -/
def ofSize? (size : Int) : Except Fault Memory :=
  if size ≤ 0 then .error (.badMemorySize size) else .ok ⟨Array.replicate size.toNat {}⟩

/-- The slot at an address, if there is one. -/
def slot? (m : Memory) (address : Int) : Option Slot :=
  if 0 ≤ address then m.slots[address.toNat]? else none

def read? (m : Memory) (address : Int) : Except Fault Slot :=
  match m.slot? address with
  | some s => .ok s
  | none => .error (.badAddress address)

/-- The memory with another slot at an address. -/
def write? (m : Memory) (address : Int) (s : Slot) : Except Fault Memory :=
  if 0 ≤ address ∧ address < m.size then .ok ⟨m.slots.setIfInBounds address.toNat s⟩
  else .error (.badAddress address)

/-- The memory with the given slots from an address on. -/
def writeAll? (m : Memory) (address : Int) : List Slot → Except Fault Memory
  | [] => .ok m
  | s :: rest =>
    match m.write? address s with
    | .ok m' => m'.writeAll? (address + 1) rest
    | .error fault => .error fault

/-- The slots that a program takes. -/
def programSlots (lines : List String) : List Slot :=
  lines.map Slot.ofLine ++ List.replicate reserved Slot.free

/-- Loads a program and gives the address of its last reserved slot. A program that does not fit
is refused before anything is written. -/
def load? (m : Memory) (start : Int) (lines : List String) : Except Fault (Memory × Int) :=
  let last := start + lines.length + reserved - 1
  if start < 0 ∨ m.size ≤ last then .error (.doesNotFit lines.length start last m.size)
  else
    match m.writeAll? start (programSlots lines) with
    | .ok m' => .ok (m', last)
    | .error fault => .error fault

/-- The first address from `low` to `high` whose slot has the given name; without a `high`, to the
end of the memory. -/
def findAddress (m : Memory) (name : String) (low : Int) (high : Option Int) : Option Int :=
  let first := (max 0 low).toNat
  let last := min (high.getD (m.size - 1)) (m.size - 1)
  ((List.range' first (last + 1 - first).toNat).find? fun address =>
    (m.slots[address]?.map Slot.name) == some name).map Int.ofNat

/-- The first address of all whose slot has the given name. -/
def addressOf (m : Memory) (name : String) : Option Int := m.findAddress name 0 none

/-- The value of the first slot with the given name. -/
def find (m : Memory) (name : String) : Option String :=
  ((m.addressOf name).bind m.slot?).map Slot.value

/-- The slot at an address if it holds an instruction. -/
def instructionSlot? (m : Memory) (address : Int) : Option (Slot × Instruction) :=
  (m.slot? address).bind fun s => s.instruction?.map fun i => (s, i)

def isInstruction (m : Memory) (address : Int) : Bool := (m.instructionSlot? address).isSome

/-- The slots with their addresses. -/
def listing (m : Memory) : List (Nat × Slot) := m.slots.toList.zipIdx.map fun (s, i) => (i, s)

/-- The slots with a name or a value, with their addresses. -/
def inUse (m : Memory) : List (Nat × Slot) :=
  m.listing.filter fun (_, s) => !(s.name.isEmpty && s.value.isEmpty)

/-! ### Reading after writing -/

theorem write?_eq_ok {m m' : Memory} {address : Int} {s : Slot} (h : m.write? address s = .ok m') :
    0 ≤ address ∧ address < m.size ∧ m' = ⟨m.slots.setIfInBounds address.toNat s⟩ := by
  unfold write? at h
  split at h
  · rename_i inside
    exact ⟨inside.1, inside.2, (Except.ok.inj h).symm⟩
  · cases h

theorem size_write {m m' : Memory} {address : Int} {s : Slot} (h : m.write? address s = .ok m') :
    m'.size = m.size := by
  obtain ⟨-, -, rfl⟩ := write?_eq_ok h
  simp [size]

theorem slot?_write {m m' : Memory} {address : Int} {s : Slot} (h : m.write? address s = .ok m')
    (a : Int) : m'.slot? a = if a = address then some s else m.slot? a := by
  obtain ⟨low, high, rfl⟩ := write?_eq_ok h
  unfold slot? size at *
  by_cases same : a = address
  · subst same
    simp [low, show a.toNat < m.slots.size by omega]
  · by_cases positive : 0 ≤ a
    · simp [positive, same, show ¬address.toNat = a.toNat by omega]
    · simp [positive, same]

end Memory

end RoundRobin
