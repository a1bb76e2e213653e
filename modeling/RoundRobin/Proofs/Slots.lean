import Mathlib.Tactic.Common
import RoundRobin.Memory

/-!
# Slots after loading and searching

What loading a program writes, slot by slot (`slot?_load`), when it is refused (`load?_eq_error`),
and what a search by name finds (`slot?_of_addressOf`, `addressOf_eq_some`).
-/

namespace RoundRobin

namespace Slot

/-- A slot that holds a variable. -/
def IsVariable (s : Slot) : Prop := s.name ≠ "" ∧ isReservedName s.name = false

theorem instruction?_ofLine (line : String) :
    (ofLine line).instruction? = some (Instruction.decode line) := rfl

theorem instruction?_free : free.instruction? = none := rfl

theorem IsVariable.instruction? {s : Slot} (h : s.IsVariable) : s.instruction? = none := by
  have other : s.name ≠ instructionName := by
    intro e
    have := h.2
    simp [isReservedName, e] at this
  exact if_neg other

theorem not_isVariable_ofLine (line : String) : ¬(ofLine line).IsVariable := by
  rintro ⟨-, h⟩
  exact absurd h (by simp [ofLine, isReservedName])

theorem not_isVariable_free : ¬free.IsVariable := by
  rintro ⟨-, h⟩
  exact absurd h (by decide)

end Slot

namespace Memory

variable {m m' : Memory} {a start last : Int} {s : Slot}

theorem slot?_eq_some_iff : (∃ s, m.slot? a = some s) ↔ 0 ≤ a ∧ a < m.size := by
  unfold slot? size
  constructor
  · rintro ⟨s, h⟩
    split at h
    · have := (Array.getElem?_eq_some_iff.1 h).1
      omega
    · cases h
  · rintro ⟨low, high⟩
    have inside : a.toNat < m.slots.size := by omega
    exact ⟨m.slots[a.toNat], by simp [low, inside]⟩

theorem bounds_of_slot? (h : m.slot? a = some s) : 0 ≤ a ∧ a < m.size :=
  slot?_eq_some_iff.1 ⟨s, h⟩

theorem write?_eq_ok_of_slot? (h : m.slot? a = some s) (s' : Slot) :
    ∃ m', m.write? a s' = .ok m' := by
  have inside := bounds_of_slot? h
  exact ⟨_, if_pos inside⟩

theorem instructionSlot?_of_slot? (h : m.slot? a = some s) :
    (m.instructionSlot? a).map Prod.snd = s.instruction? := by
  simp [instructionSlot?, h, Option.map_map, Function.comp_def]

/-! ### Loading -/

theorem size_writeAll {slots : List Slot} (h : m.writeAll? start slots = .ok m') :
    m'.size = m.size := by
  induction slots generalizing m start with
  | nil =>
    cases h
    rfl
  | cons s rest ih =>
    unfold writeAll? at h
    split at h
    · rename_i m₁ h₁
      exact (ih h).trans (size_write h₁)
    · cases h

/-- Writing slots in a row changes nothing outside the row. -/
theorem slot?_writeAll {slots : List Slot} (h : m.writeAll? start slots = .ok m') (a : Int) :
    m'.slot? a = if start ≤ a ∧ a < start + slots.length then slots[(a - start).toNat]?
      else m.slot? a := by
  induction slots generalizing m start with
  | nil =>
    cases h
    rw [if_neg (by simp only [List.length_nil]; omega)]
  | cons s rest ih =>
    unfold writeAll? at h
    split at h
    · rename_i m₁ h₁
      rw [ih h, slot?_write h₁]
      simp only [List.length_cons]
      by_cases first : a = start
      · subst first
        rw [if_neg (by omega), if_pos rfl, if_pos (by omega)]
        simp
      · by_cases within : start + 1 ≤ a ∧ a < start + 1 + rest.length
        · rw [if_pos within, if_pos (by omega)]
          have later : (a - start).toNat = (a - (start + 1)).toNat + 1 := by omega
          rw [later, List.getElem?_cons_succ]
        · rw [if_neg within, if_neg first, if_neg (by omega)]
    · cases h

theorem writeAll?_eq_ok (slots : List Slot) (low : 0 ≤ start) (high : start + slots.length ≤ m.size) :
    ∃ m', m.writeAll? start slots = .ok m' := by
  induction slots generalizing m start with
  | nil => exact ⟨m, rfl⟩
  | cons s rest ih =>
    simp only [List.length_cons] at high
    have h₁ : m.write? start s = .ok ⟨m.slots.setIfInBounds start.toNat s⟩ :=
      if_pos ⟨low, by omega⟩
    obtain ⟨m', h'⟩ := ih (show 0 ≤ start + 1 by omega)
      (show start + 1 + rest.length ≤ (_ : Memory).size by rw [size_write h₁]; omega)
    exact ⟨m', by rw [writeAll?, h₁]; exact h'⟩

@[simp]
theorem length_programSlots (lines : List String) :
    (programSlots lines).length = lines.length + reserved := by
  simp [programSlots]

/-- A program that is loaded lies in memory, and its slots are written in a row. -/
theorem load?_eq_ok {lines : List String} (h : m.load? start lines = .ok (m', last)) :
    last = start + lines.length + 2 ∧ 0 ≤ start ∧ last < m.size ∧
      m.writeAll? start (programSlots lines) = .ok m' := by
  have three : reserved = 3 := rfl
  unfold load? at h
  dsimp only at h
  split at h
  · cases h
  · rename_i inside
    split at h
    · rename_i m₁ h₁
      cases h
      exact ⟨by omega, by omega, by omega, h₁⟩
    · cases h

/-- A program is refused exactly if it does not lie in memory. -/
theorem load?_eq_ok_iff {lines : List String} :
    (∃ r, m.load? start lines = .ok r) ↔ 0 ≤ start ∧ start + lines.length + 2 < m.size := by
  constructor
  · rintro ⟨⟨m', last⟩, h⟩
    obtain ⟨rfl, low, high, -⟩ := load?_eq_ok h
    exact ⟨low, high⟩
  · rintro ⟨low, high⟩
    have three : reserved = 3 := rfl
    obtain ⟨m', h'⟩ := writeAll?_eq_ok (m := m) (programSlots lines) low
      (by rw [length_programSlots]; omega)
    refine ⟨(m', start + lines.length + reserved - 1), ?_⟩
    unfold load?
    rw [if_neg (by omega), h']

/-- A program that does not lie in memory is refused with where it would lie. -/
theorem load?_eq_error {lines : List String}
    (outside : start < 0 ∨ m.size < start + lines.length + 3) : m.load? start lines
      = .error (.doesNotFit lines.length start (start + lines.length + 2) m.size) := by
  have last : start + lines.length + reserved - 1 = start + lines.length + 2 := by
    have three : reserved = 3 := rfl
    omega
  unfold load?
  rw [last, if_pos (by omega)]

theorem size_load {lines : List String} (h : m.load? start lines = .ok (m', last)) :
    m'.size = m.size :=
  size_writeAll (load?_eq_ok h).2.2.2

/-- The slots of a loaded program: its lines, then free slots; all others are left as they were. -/
theorem slot?_load {lines : List String} (h : m.load? start lines = .ok (m', last)) (a : Int) :
    m'.slot? a = if start ≤ a ∧ a ≤ last then (programSlots lines)[(a - start).toNat]?
      else m.slot? a := by
  obtain ⟨rfl, -, -, written⟩ := load?_eq_ok h
  have three : reserved = 3 := rfl
  rw [slot?_writeAll written, length_programSlots]
  by_cases within : start ≤ a ∧ a ≤ start + lines.length + 2
  · rw [if_pos within, if_pos (by omega)]
  · rw [if_neg within, if_neg (by omega)]

/-! ### Searching -/

theorem slot?_of_findAddress {name : String} {low : Int} {high : Option Int}
    (h : m.findAddress name low high = some a) : ∃ s, m.slot? a = some s ∧ s.name = name := by
  obtain ⟨i, hi, rfl⟩ := Option.map_eq_some_iff.1 h
  have named := List.find?_some hi
  simp only [beq_iff_eq, Option.map_eq_some_iff] at named
  obtain ⟨s, hs, named⟩ := named
  exact ⟨s, by simpa [slot?] using hs, named⟩

theorem slot?_of_addressOf {name : String} (h : m.addressOf name = some a) :
    ∃ s, m.slot? a = some s ∧ s.name = name :=
  slot?_of_findAddress h

theorem write?_eq_ok_of_addressOf {name : String} (h : m.addressOf name = some a) (s' : Slot) :
    ∃ m', m.write? a s' = .ok m' := by
  obtain ⟨s, at_a, -⟩ := slot?_of_addressOf h
  exact write?_eq_ok_of_slot? at_a s'

theorem slot?_natCast (m : Memory) (i : Nat) : m.slot? i = m.slots[i]? := by
  rw [slot?, if_pos (Int.natCast_nonneg i), Int.toNat_natCast]

/-- What a search tests is whether the slot has the name. -/
theorem hasName_iff {name : String} (i : Nat) : (m.slots[i]?.map Slot.name == some name) = true ↔
    ∃ s, m.slot? i = some s ∧ s.name = name := by
  rw [beq_iff_eq, Option.map_eq_some_iff, slot?_natCast]

/-- A search finds the first slot of the name in its window. -/
theorem findAddress_eq_some {name : String} {low : Int} {high : Option Int}
    (at_a : m.slot? a = some s) (named : s.name = name) (above : low ≤ a)
    (below : ∀ h ∈ high, a ≤ h)
    (first : ∀ b t, low ≤ b → b < a → m.slot? b = some t → t.name ≠ name) :
    m.findAddress name low high = some a := by
  obtain ⟨positive, inside⟩ := bounds_of_slot? at_a
  obtain ⟨i, rfl⟩ := Int.eq_ofNat_of_zero_le positive
  have last : (i : Int) ≤ high.getD (m.size - 1) := by
    cases high with
    | none => exact Int.le_sub_one_of_lt inside
    | some h => exact below h rfl
  refine congrArg (Option.map Int.ofNat)
    (List.find?_range'_eq_some.2 ⟨(hasName_iff i).2 ⟨s, at_a, named⟩, ?_, fun j from_low before => ?_⟩)
  · rw [List.mem_range'_1]
    omega
  · rw [Bool.not_eq_true', ← Bool.not_eq_true, hasName_iff]
    rintro ⟨t, at_j, same⟩
    exact first j t (by omega) (by omega) at_j same

theorem findAddress_eq_none {name : String} {low : Int} {high : Option Int}
    (nobody : ∀ b t, low ≤ b → (∀ h ∈ high, b ≤ h) → m.slot? b = some t → t.name ≠ name) :
    m.findAddress name low high = none := by
  unfold findAddress
  rw [Option.map_eq_none_iff, List.find?_eq_none]
  intro i hi
  rw [List.mem_range'_1] at hi
  rw [hasName_iff]
  rintro ⟨t, at_i, same⟩
  refine nobody i t (by omega) (fun h given => ?_) at_i same
  rw [given, Option.getD_some] at hi
  omega

/-- A search by name finds the first slot of the name. -/
theorem addressOf_eq_some {name : String} (at_a : m.slot? a = some s) (named : s.name = name)
    (first : ∀ b t, b < a → m.slot? b = some t → t.name ≠ name) : m.addressOf name = some a :=
  findAddress_eq_some at_a named (bounds_of_slot? at_a).1 nofun fun b t _ => first b t

theorem addressOf_eq_none {name : String} (nobody : ∀ a s, m.slot? a = some s → s.name ≠ name) :
    m.addressOf name = none :=
  findAddress_eq_none fun b t _ _ => nobody b t

end Memory

end RoundRobin
