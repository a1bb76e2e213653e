import RoundRobin.Proofs.Numeral
import RoundRobin.Proofs.Slots

/-!
# Loading a program

A program is loaded as a whole or not at all, although its slots are written in place and one after the
other, where a fault on the way would leave behind what was written before it (`Memory.loadInPlace`).
What the check at the beginning lets through lies in the memory to its last slot, so no write is refused
(`Memory.loadInPlace_eq`). Programs that lie apart can be loaded in either order
(`Memory.afterLoad_swap`).
-/

namespace RoundRobin

namespace Memory

variable {m m' : Memory} {start : Int} {lines : List String}

/-! ### Loading in place -/

/-- Something done to a memory in place: what was done before a fault stays done. -/
abbrev InPlace := EStateM Fault Memory

theorem InPlace.bind_apply {α β : Type} (x : InPlace α) (f : α → InPlace β) (m : Memory) :
    (x >>= f) m = match x m with
      | .ok a m' => f a m'
      | .error fault m' => .error fault m' := by
  show EStateM.bind x f m = _
  unfold EStateM.bind
  cases x m <;> rfl

/-- Writes a slot in place. -/
def writeInPlace (address : Int) (s : Slot) : InPlace Unit := fun m =>
  match m.write? address s with
  | .ok m' => .ok () m'
  | .error fault => .error fault m

/-- Writes slots in a row, in place, and gives the address behind them. If one of them lies outside the
memory, those before it stay written. -/
def writeEach (address : Int) : List Slot → InPlace Int
  | [] => pure address
  | s :: rest => do
    writeInPlace address s
    writeEach (address + 1) rest

/-- Loads a program in place: once it is checked that there is room, its lines are written, then the free
slots behind them. Gives the address of the last one. -/
def loadInPlace (start : Int) (lines : List String) : InPlace Int := do
  let m ← get
  let last := start + lines.length + reserved - 1
  if start < 0 ∨ m.size ≤ last then throw (.doesNotFit lines.length start last m.size)
  else
    let next ← writeEach start (lines.map Slot.ofLine)
    let next ← writeEach next (List.replicate reserved Slot.free)
    return next - 1

theorem start_add_length_cons (start : Int) (s : Slot) (rest : List Slot) :
    start + 1 + rest.length = start + (s :: rest).length := by
  rw [List.length_cons]
  omega

theorem writeAll?_append (slots later : List Slot) :
    m.writeAll? start (slots ++ later) = (m.writeAll? start slots).bind fun m' =>
      m'.writeAll? (start + slots.length) later := by
  induction slots generalizing m start with
  | nil => simp [writeAll?, Except.bind]
  | cons s rest ih =>
    simp only [List.cons_append, writeAll?]
    cases m.write? start s with
    | error fault => rfl
    | ok m₁ =>
      dsimp only
      rw [ih, start_add_length_cons]

/-- If no slot of a row lies outside the memory, writing in place comes to the same. -/
theorem writeEach_of_writeAll {slots : List Slot} (written : m.writeAll? start slots = .ok m') :
    writeEach start slots m = .ok (start + slots.length) m' := by
  induction slots generalizing m start with
  | nil =>
    cases written
    exact congrArg (EStateM.Result.ok · _) (Int.add_zero start).symm
  | cons s rest ih =>
    unfold writeAll? at written
    cases first : m.write? start s with
    | error fault =>
      rw [first] at written
      cases written
    | ok m₁ =>
      rw [first] at written
      have done : writeInPlace start s m = .ok () m₁ := by rw [writeInPlace, first]
      rw [writeEach, InPlace.bind_apply, done, ← start_add_length_cons]
      exact ih written

/-- Loading in place comes to the same as loading. A refused program leaves the memory as it was. -/
theorem loadInPlace_eq (m : Memory) (start : Int) (lines : List String) :
    loadInPlace start lines m = match m.load? start lines with
      | .ok (m', last) => .ok last m'
      | .error fault => .error fault m := by
  have three : reserved = 3 := rfl
  have get_apply : (get : InPlace Memory) m = .ok m m := rfl
  unfold loadInPlace
  rw [InPlace.bind_apply, get_apply]
  dsimp only
  by_cases refused : start < 0 ∨ (m.size : Int) ≤ start + lines.length + reserved - 1
  · unfold load?
    rw [if_pos refused]
    dsimp only
    rw [if_pos refused]
    rfl
  · obtain ⟨m', written⟩ : ∃ m', m.writeAll? start (programSlots lines) = .ok m' := by
      apply writeAll?_eq_ok
      · omega
      · rw [length_programSlots]
        omega
    have loaded : m.load? start lines = .ok (m', start + lines.length + reserved - 1) := by
      unfold load?
      rw [if_neg refused, written]
    -- the lines are written first, and then the free slots from the address behind them on
    rw [programSlots, writeAll?_append] at written
    cases first : m.writeAll? start (lines.map Slot.ofLine) with
    | error fault =>
      rw [first] at written
      cases written
    | ok m₁ =>
      rw [first] at written
      rw [if_neg refused, loaded, InPlace.bind_apply, writeEach_of_writeAll first]
      dsimp only
      rw [InPlace.bind_apply, writeEach_of_writeAll written, List.length_map, List.length_replicate]
      rfl

/-! ### The memory after loading -/

/-- A memory is known by its size and its slots. -/
theorem eq_of_slot? (size : m.size = m'.size) (slots : ∀ a, m.slot? a = m'.slot? a) : m = m' := by
  have same : m.slots = m'.slots := by
    apply Array.ext_getElem?
    intro i
    rw [← slot?_natCast, ← slot?_natCast]
    exact slots i
  cases m
  cases m'
  exact congrArg Memory.mk same

/-- The memory after an attempt to load a program in place, whatever came of it. -/
def afterLoad (m : Memory) (start : Int) (lines : List String) : Memory :=
  match loadInPlace start lines m with
  | .ok _ m' => m'
  | .error _ m' => m'

theorem afterLoad_of_ok {last : Int} (loaded : m.load? start lines = .ok (m', last)) :
    m.afterLoad start lines = m' := by
  rw [afterLoad, loadInPlace_eq, loaded]

theorem afterLoad_of_error {fault : Fault} (refused : m.load? start lines = .error fault) :
    m.afterLoad start lines = m := by
  rw [afterLoad, loadInPlace_eq, refused]

theorem size_afterLoad (m : Memory) (start : Int) (lines : List String) :
    (m.afterLoad start lines).size = m.size := by
  cases result : m.load? start lines with
  | error fault => rw [afterLoad_of_error result]
  | ok r => rw [afterLoad_of_ok result, size_load result]

/-- The slots of a program that fits are those of the program, and all others are left as they were. -/
theorem slot?_afterLoad (m : Memory) (start : Int) (lines : List String) (a : Int) :
    (m.afterLoad start lines).slot? a
      = if (0 ≤ start ∧ start + lines.length + 2 < m.size) ∧ start ≤ a ∧
          a ≤ start + lines.length + 2 then (programSlots lines)[(a - start).toNat]?
        else m.slot? a := by
  by_cases fits : 0 ≤ start ∧ start + lines.length + 2 < m.size
  · obtain ⟨⟨m', last⟩, loaded⟩ := load?_eq_ok_iff.2 fits
    obtain ⟨rfl, -⟩ := load?_eq_ok loaded
    rw [afterLoad_of_ok loaded, slot?_load loaded]
    simp only [fits, and_self, true_and]
  · have refused : ¬∃ r, m.load? start lines = .ok r := mt load?_eq_ok_iff.1 fits
    rw [if_neg fun h => fits h.1]
    cases result : m.load? start lines with
    | error fault => rw [afterLoad_of_error result]
    | ok r => exact absurd ⟨r, result⟩ refused

/-- The slots of two programs lie apart. -/
def Apart (start : Int) (lines : List String) (start' : Int) (lines' : List String) : Prop :=
  start + lines.length + 2 < start' ∨ start' + lines'.length + 2 < start

/-- Two programs that lie apart can be loaded in either order. -/
theorem afterLoad_swap (m : Memory) {start start' : Int} {lines lines' : List String}
    (apart : Apart start lines start' lines') :
    (m.afterLoad start lines).afterLoad start' lines'
      = (m.afterLoad start' lines').afterLoad start lines := by
  refine eq_of_slot? (by simp only [size_afterLoad]) fun a => ?_
  simp only [slot?_afterLoad, size_afterLoad]
  unfold Apart at apart
  split_ifs
  · omega
  · rfl
  · rfl
  · rfl

/-- A memory in which a program was loaded: it holds the lines of the program and three free slots behind
them, and all else is as it was. -/
structure HoldsProgram (m : Memory) (start : Int) (lines : List String) (m' : Memory) : Prop where
  size : m'.size = m.size
  line : ∀ (i : Nat) (line : String), lines[i]? = some line →
    m'.slot? (start + i) = some ⟨"Instruction", line⟩ ∧
      m'.instructionSlot? (start + i) = some (⟨"Instruction", line⟩, .decode line)
  reserved : ∀ i : Nat, i < 3 → m'.slot? (start + lines.length + i) = some ⟨"Free", ""⟩ ∧
    m'.instructionSlot? (start + lines.length + i) = none
  outside : ∀ a, a < start ∨ start + lines.length + 2 < a → m'.slot? a = m.slot? a

theorem holdsProgram_of_load {last : Int} (loaded : m.load? start lines = .ok (m', last)) :
    HoldsProgram m start lines m' := by
  obtain ⟨rfl, -⟩ := load?_eq_ok loaded
  have slots := slot?_load loaded
  refine ⟨size_load loaded, fun i line given => ?_, fun i few => ?_, fun a beyond => ?_⟩
  · have inside := (List.getElem?_eq_some_iff.1 given).1
    have index : (start + i - start).toNat = i := by omega
    have at_line : m'.slot? (start + i) = some (.ofLine line) := by
      rw [slots, if_pos (by omega), index, programSlots,
        List.getElem?_append_left (by rwa [List.length_map]), List.getElem?_map, given]
      rfl
    refine ⟨at_line, ?_⟩
    rw [instructionSlot?, at_line]
    rfl
  · have index : (start + lines.length + i - start).toNat = lines.length + i := by omega
    have at_free : m'.slot? (start + lines.length + i) = some .free := by
      rw [slots, if_pos (by omega), index, programSlots,
        List.getElem?_append_right (by rw [List.length_map]; omega), List.length_map,
        Nat.add_sub_cancel_left]
      exact List.getElem?_replicate_of_lt few
    refine ⟨at_free, ?_⟩
    rw [instructionSlot?, at_free]
    rfl
  · rw [slots, if_neg (by omega)]

/-- What comes of loading a program at an address. -/
structure LoadsWhole (m : Memory) (start : Int) (lines : List String) : Prop where
  /-- Loading in place, slot by slot, comes to the same as loading. -/
  in_place : loadInPlace start lines m = match m.load? start lines with
    | .ok (m', last) => .ok last m'
    | .error fault => .error fault m
  /-- A program is refused exactly if it does not lie in the memory. -/
  refused_iff : (∃ fault m', loadInPlace start lines m = .error fault m') ↔
    start < 0 ∨ m.size < start + lines.length + 3
  /-- Every slot is then as before, and the only reason that is given is that there is no room. -/
  refused : ∀ fault m', loadInPlace start lines m = .error fault m' → m' = m ∧
    fault = .doesNotFit lines.length start (start + lines.length + 2) m.size
  /-- The reason can be told if none of the numbers that it names is too long for a numeral. -/
  told : ∀ fault m', loadInPlace start lines m = .error fault m' →
    (fault.isWritable ↔ ∀ n ∈ [(lines.length : Int), start, start + lines.length + 2, m.size],
      n.natAbs < 10 ^ Integer.maxDigits)
  loaded : ∀ last m', loadInPlace start lines m = .ok last m' →
    last = start + lines.length + 2 ∧ HoldsProgram m start lines m'
  /-- It does not matter for the memory whether a program that lies apart is loaded before or after. -/
  swaps : ∀ start' lines', Apart start lines start' lines' →
    (m.afterLoad start lines).afterLoad start' lines'
      = (m.afterLoad start' lines').afterLoad start lines

/-- A program is loaded as a whole or not at all: it is refused exactly if it does not lie in the memory,
for no other reason, and with nothing written. -/
theorem loads_whole (m : Memory) (start : Int) (lines : List String) :
    LoadsWhole m start lines := by
  have inPlace := loadInPlace_eq m start lines
  by_cases outside : start < 0 ∨ m.size < start + lines.length + 3
  · rw [load?_eq_error outside] at inPlace
    have failed : ∀ fault m', loadInPlace start lines m = .error fault m' →
        fault = .doesNotFit lines.length start (start + lines.length + 2) m.size ∧ m' = m := by
      rintro fault m' failed
      cases inPlace.symm.trans failed
      exact ⟨rfl, rfl⟩
    refine ⟨loadInPlace_eq m start lines, iff_of_true ⟨_, _, inPlace⟩ outside,
      fun fault m' h => And.symm (failed fault m' h), fun fault m' h => ?_, fun last m' h => ?_,
      fun start' lines' => afterLoad_swap m⟩
    · rw [(failed fault m' h).1]
      exact Fault.isWritable_iff _
    · cases inPlace.symm.trans h
  · obtain ⟨⟨m₁, last⟩, loaded⟩ := load?_eq_ok_iff.2 (show 0 ≤ start ∧ start + lines.length + 2 < m.size
      by omega)
    rw [loaded] at inPlace
    have fine : ∀ fault m', loadInPlace start lines m ≠ .error fault m' := by
      intro fault m' failed
      cases inPlace.symm.trans failed
    refine ⟨loadInPlace_eq m start lines, iff_of_false ?_ outside,
      fun fault m' h => absurd h (fine fault m'), fun fault m' h => absurd h (fine fault m'),
      fun last m' h => ?_, fun start' lines' => afterLoad_swap m⟩
    · rintro ⟨fault, m', failed⟩
      exact fine fault m' failed
    · cases inPlace.symm.trans h
      exact ⟨(load?_eq_ok loaded).1, holdsProgram_of_load loaded⟩

/-- An address of 4300 nines has a numeral, but that of the last slot of a program at this address has
none. So the program is refused, and it cannot be told that there is no room. -/
theorem loads_whole_untold : ∃ fault,
    loadInPlace (10 ^ Integer.maxDigits - 1 : Nat) [] ⟨Array.replicate 5 {}⟩
      = .error fault ⟨Array.replicate 5 {}⟩ ∧
    fault.isWritable = false ∧ fault.message = Integer.tooLongMessage := by
  have large : 9 ≤ 10 ^ Integer.maxDigits - 1 :=
    Nat.le_sub_of_add_le (Nat.le_self_pow (by decide) 10)
  have last : Integer.isWritable ((10 ^ Integer.maxDigits - 1 : Nat) + 2) = false := by
    rw [← Bool.not_eq_true, Integer.isWritable_iff]
    omega
  generalize 10 ^ Integer.maxDigits - 1 = start at last large ⊢
  have outside : (start : Int) < 0 ∨ (5 : Nat) < (start : Int) + ([] : List String).length + 3 := by
    rw [List.length_nil]
    omega
  have inPlace := loadInPlace_eq ⟨Array.replicate 5 {}⟩ start []
  rw [load?_eq_error outside] at inPlace
  have untold : (Fault.doesNotFit 0 start (start + 2) 5).isWritable = false := by
    simp only [Fault.isWritable, Fault.numbers, List.all_cons, last, Bool.false_and, Bool.and_false]
  refine ⟨_, inPlace, untold, ?_⟩
  unfold Fault.message
  exact if_neg (ne_true_of_eq_false untold)

end Memory

end RoundRobin
