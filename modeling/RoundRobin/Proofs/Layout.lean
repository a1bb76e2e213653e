import Mathlib.Algebra.BigOperators.Group.List.Basic
import Mathlib.Algebra.Ring.Nat
import Mathlib.Data.List.Induction
import RoundRobin.Process.ControlBlock
import RoundRobin.Proofs.Slots

/-!
# Programs and where they are

A `Program` is what was loaded: its lines and its release time. Programs lie in memory in a row, in
the order in which they were loaded, each with the slots reserved for its variables
(`Program.start`). `Holds` says that a part of the memory still holds a program and the variables
of its process, and that the process is somewhere in the program or at its end. As long as this is
so, the instruction at which the process stands can be read off the program
(`Holds.instructionSlot?_pc`).
-/

namespace RoundRobin

/-- A program as it was loaded. -/
structure Program where
  lines : List String
  /-- The time from which on its process may run. -/
  release : Int
  deriving DecidableEq, Repr

namespace Program

/-- The instructions that the lines stand for. -/
def instructions (P : Program) : List Instruction := P.lines.map Instruction.decode

/-- The number of slots that a program takes. -/
def extent (P : Program) : Nat := P.lines.length + Memory.reserved

/-- The number of slots that some programs take in a row. -/
def extents (ps : List Program) : Nat := (ps.map extent).sum

/-- The program that was loaded under a key. -/
def under (ps : List Program) (key : Int) : Option Program :=
  if 0 < key then ps[(key - 1).toNat]? else none

/-- The address at which the program under a key starts. -/
def start (ps : List Program) (key : Int) : Nat := extents (ps.take (key - 1).toNat)

variable {ps : List Program} {P : Program} {key : Int}

@[simp]
theorem extents_append (ps qs : List Program) : extents (ps ++ qs) = extents ps + extents qs := by
  simp [extents]

theorem under_eq_some_iff : under ps key = some P ↔ 0 < key ∧ ps[(key - 1).toNat]? = some P := by
  simp [under]

theorem mem_of_under (h : under ps key = some P) : P ∈ ps :=
  List.mem_of_getElem? (under_eq_some_iff.1 h).2

theorem start_add_extent (h : under ps key = some P) :
    start ps key + P.extent = extents (ps.take ((key - 1).toNat + 1)) := by
  have at_key := (under_eq_some_iff.1 h).2
  rw [List.take_add_one, extents_append, at_key, start]
  simp [extents]

theorem extents_take_le {i j : Nat} (h : i ≤ j) : extents (ps.take i) ≤ extents (ps.take j) := by
  obtain ⟨k, rfl⟩ := Nat.exists_eq_add_of_le h
  rw [List.take_add, extents_append]
  omega

/-- A program ends before every later one starts. -/
theorem start_add_extent_le {other : Int} (h : under ps key = some P) (later : key < other) :
    start ps key + P.extent ≤ start ps other := by
  rw [start_add_extent h]
  have positive := (under_eq_some_iff.1 h).1
  exact extents_take_le (by omega)

theorem start_add_extent_le_extents (h : under ps key = some P) :
    start ps key + P.extent ≤ extents ps := by
  rw [start_add_extent h]
  conv_rhs => rw [← List.take_append_drop ((key - 1).toNat + 1) ps, extents_append]
  omega

/-- A program that is loaded later moves no program. -/
theorem start_append (Q : Program) (h : under ps key = some P) :
    start (ps ++ [Q]) key = start ps key := by
  have inside := (List.getElem?_eq_some_iff.1 (under_eq_some_iff.1 h).2).1
  rw [start, start, List.take_append_of_le_length (by omega)]

theorem under_append_of_some (Q : Program) (h : under ps key = some P) :
    under (ps ++ [Q]) key = some P := by
  obtain ⟨positive, at_key⟩ := under_eq_some_iff.1 h
  have inside := (List.getElem?_eq_some_iff.1 at_key).1
  rw [under_eq_some_iff, List.getElem?_append_left inside]
  exact ⟨positive, at_key⟩

theorem under_append_last (ps : List Program) (Q : Program) :
    under (ps ++ [Q]) (ps.length + 1) = some Q := by
  rw [under_eq_some_iff]
  refine ⟨by omega, ?_⟩
  rw [show ((ps.length : Int) + 1 - 1).toNat = ps.length by omega]
  simp

theorem start_append_last (ps : List Program) (Q : Program) :
    start (ps ++ [Q]) (ps.length + 1) = extents ps := by
  rw [start, show ((ps.length : Int) + 1 - 1).toNat = ps.length by omega]
  simp

theorem under_append_cases {Q : Program} (h : under (ps ++ [Q]) key = some P) :
    under ps key = some P ∨ key = ps.length + 1 ∧ P = Q := by
  obtain ⟨positive, at_key⟩ := under_eq_some_iff.1 h
  by_cases inside : (key - 1).toNat < ps.length
  · rw [List.getElem?_append_left inside] at at_key
    exact .inl (under_eq_some_iff.2 ⟨positive, at_key⟩)
  · rw [List.getElem?_append_right (by omega)] at at_key
    obtain ⟨small, same⟩ := List.getElem?_eq_some_iff.1 at_key
    simp only [List.length_singleton] at small
    simp only [List.getElem_singleton] at same
    exact .inr ⟨by omega, same.symm⟩

/-- Every place in a row of programs is in one of them. -/
theorem exists_start_le (ps : List Program) {n : Nat} (inside : n < extents ps) :
    ∃ key P, under ps key = some P ∧ start ps key ≤ n ∧ n < start ps key + P.extent := by
  induction ps using List.reverseRecOn with
  | nil => exact absurd inside (Nat.not_lt_zero n)
  | append_singleton ps Q ih =>
    by_cases before : n < extents ps
    · obtain ⟨key, P, hP, low, high⟩ := ih before
      refine ⟨key, P, under_append_of_some Q hP, ?_⟩
      rw [start_append Q hP]
      exact ⟨low, high⟩
    · refine ⟨ps.length + 1, Q, under_append_last ps Q, ?_⟩
      have whole : extents [Q] = Q.extent := by simp [extents]
      rw [extents_append, whole] at inside
      rw [start_append_last]
      omega

end Program

namespace ControlBlock

/-- How many lines of its program a process has behind it. -/
def offset (p : ControlBlock) : Nat := (p.pc - p.lowerBound).toNat

/-- What a process is, apart from where it stands in the queues and what was counted of it. -/
def place (p : ControlBlock) : ControlBlock :=
  { p with
    state := .pending, startTime := none, endTime := none, blockedOn := .nothing, executed := 0 }

end ControlBlock

namespace Program

/-- The instruction at which a process stands in its program; none at the end. -/
def next? (P : Program) (p : ControlBlock) : Option Instruction := P.instructions[p.offset]?

/-- The instructions that a process has behind it. -/
def done (P : Program) (p : ControlBlock) : List Instruction := P.instructions.take p.offset

end Program

/-- A part of the memory holds a program, followed by the variables of its process and the slots
that are still free for more of them. -/
structure Holds (m : Memory) (P : Program) (p : ControlBlock) : Prop where
  upper : p.upperBound = p.lowerBound + P.lines.length + 2
  lower_le_pc : p.lowerBound ≤ p.pc
  pc_le : p.pc ≤ p.lowerBound + P.lines.length
  line : ∀ (i : Nat) line, P.lines[i]? = some line →
    m.slot? (p.lowerBound + i) = some (Slot.ofLine line)
  bound_nonneg : 0 ≤ p.bound
  bound_le : p.bound ≤ 3
  isVariable : ∀ j : Int, 0 ≤ j → j < p.bound →
    ∃ s, m.slot? (p.firstReserved + j) = some s ∧ s.IsVariable
  free : ∀ j : Int, p.bound ≤ j → j < 3 → m.slot? (p.firstReserved + j) = some Slot.free

namespace Holds

variable {m m' : Memory} {P : Program} {p p' : ControlBlock}

theorem firstReserved_eq (h : Holds m P p) : p.firstReserved = p.lowerBound + P.lines.length := by
  have two : (Memory.reserved : Int) - 1 = 2 := rfl
  have upper := h.upper
  rw [ControlBlock.firstReserved, two]
  omega

theorem offset_le (h : Holds m P p) : p.offset ≤ P.lines.length := by
  have := h.pc_le
  simp only [ControlBlock.offset]
  omega

theorem lower_add_offset (h : Holds m P p) : p.lowerBound + p.offset = p.pc := by
  have := h.lower_le_pc
  simp only [ControlBlock.offset]
  omega

theorem of_place (h : Holds m P p) (same : p'.place = p.place) : Holds m P p' := by
  have moved : Holds m P p.place := ⟨h.1, h.2, h.3, h.4, h.5, h.6, h.7, h.8⟩
  have moved' : Holds m P p'.place := same ▸ moved
  exact ⟨moved'.1, moved'.2, moved'.3, moved'.4, moved'.5, moved'.6, moved'.7, moved'.8⟩

/-- A memory that keeps the slots of a process, or only changes the value or name of variables,
still holds what it held. -/
theorem of_slots (h : Holds m P p)
    (slots : ∀ a s, p.lowerBound ≤ a → a ≤ p.upperBound → m.slot? a = some s →
      m'.slot? a = some s ∨ s.IsVariable ∧ ∃ s', m'.slot? a = some s' ∧ s'.IsVariable) :
    Holds m' P p := by
  have upper := h.upper
  have first := h.firstReserved_eq
  refine ⟨h.upper, h.lower_le_pc, h.pc_le, ?_, h.bound_nonneg, h.bound_le, ?_, ?_⟩
  · intro i line hi
    have inside := (List.getElem?_eq_some_iff.1 hi).1
    rcases slots _ _ (by omega) (by omega) (h.line i line hi) with same | ⟨named, -⟩
    · exact same
    · exact absurd named (Slot.not_isVariable_ofLine line)
  · intro j low high
    have small := h.bound_le
    obtain ⟨s, hs, named⟩ := h.isVariable j low high
    rcases slots _ _ (by omega) (by omega) hs with same | ⟨-, changed⟩
    · exact ⟨s, same, named⟩
    · exact changed
  · intro j low high
    have nonneg := h.bound_nonneg
    rcases slots _ _ (by omega) (by omega) (h.free j low high) with same | ⟨named, -⟩
    · exact same
    · exact absurd named Slot.not_isVariable_free

/-- The instruction at which a process stands is that of its program. -/
theorem instructionSlot?_pc (h : Holds m P p) :
    (m.instructionSlot? p.pc).map Prod.snd = P.next? p := by
  rw [Program.next?, Program.instructions, List.getElem?_map, ← h.lower_add_offset]
  cases at_offset : P.lines[p.offset]? with
  | some line =>
    rw [Memory.instructionSlot?_of_slot? (h.line _ _ at_offset), Slot.instruction?_ofLine]
    rfl
  | none =>
    -- at the end of its program a process stands at the first of its reserved slots
    have beyond := List.getElem?_eq_none_iff.1 at_offset
    have at_end : p.lowerBound + p.offset = p.firstReserved + 0 := by
      have := h.offset_le
      rw [h.firstReserved_eq]
      omega
    rw [at_end]
    by_cases none_bound : p.bound ≤ 0
    · rw [Memory.instructionSlot?_of_slot? (h.free 0 none_bound (by omega)),
        Slot.instruction?_free]
      rfl
    · obtain ⟨s, hs, named⟩ := h.isVariable 0 (by omega) (by omega)
      rw [Memory.instructionSlot?_of_slot? hs, named.instruction?]
      rfl

/-- A process that stands at an instruction can go on to the next one. -/
theorem advance_eq (h : Holds m P p) {i : Instruction} (standing : P.next? p = some i) :
    p.advance = { p with pc := p.pc + 1 } := by
  have inside := (List.getElem?_eq_some_iff.1 standing).1
  simp only [Program.instructions, List.length_map] at inside
  have pc := h.lower_add_offset
  have upper := h.upper
  exact if_pos (by omega)

theorem offset_advance (h : Holds m P p) {i : Instruction} (standing : P.next? p = some i) :
    p.advance.offset = p.offset + 1 := by
  have low := h.lower_le_pc
  rw [h.advance_eq standing]
  simp only [ControlBlock.offset]
  omega

theorem advance (h : Holds m P p) {i : Instruction} (standing : P.next? p = some i) :
    Holds m P p.advance := by
  have inside := (List.getElem?_eq_some_iff.1 standing).1
  simp only [Program.instructions, List.length_map] at inside
  have pc := h.lower_add_offset
  have low := h.lower_le_pc
  rw [h.advance_eq standing]
  exact ⟨h.upper, by simp only; omega, by simp only; omega, h.line, h.bound_nonneg, h.bound_le,
    h.isVariable, h.free⟩

/-- The next variable of a process goes to a slot that is free. -/
theorem slot?_nextSlot (h : Holds m P p) (room : p.bound < 3) :
    m.slot? p.nextSlot = some Slot.free :=
  h.free p.bound (Int.le_refl _) room

theorem nextSlot_mem (h : Holds m P p) (room : p.bound < 3) :
    p.lowerBound ≤ p.nextSlot ∧ p.nextSlot ≤ p.upperBound := by
  have first := h.firstReserved_eq
  have upper := h.upper
  have nonneg := h.bound_nonneg
  simp only [ControlBlock.nextSlot]
  omega

/-- A new variable in the next slot of a process. -/
theorem bind (h : Holds m P p) (room : p.bound < 3) {s : Slot} (named : s.IsVariable)
    (written : m.write? p.nextSlot s = .ok m') :
    Holds m' P { p with bound := p.bound + 1 } := by
  have first := h.firstReserved_eq
  have nonneg := h.bound_nonneg
  have next : p.nextSlot = p.firstReserved + p.bound := rfl
  refine ⟨h.upper, h.lower_le_pc, h.pc_le, ?_, ?_, ?_, ?_, ?_⟩
  · intro i line hi
    have inside := (List.getElem?_eq_some_iff.1 hi).1
    have elsewhere : ¬p.lowerBound + i = p.nextSlot := by omega
    exact (Memory.slot?_write written _).trans ((if_neg elsewhere).trans (h.line i line hi))
  · simp only
    omega
  · simp only
    omega
  · intro j low high
    change ∃ s, m'.slot? (p.firstReserved + j) = some s ∧ s.IsVariable
    rw [Memory.slot?_write written]
    by_cases new : j = p.bound
    · exact ⟨s, if_pos (by omega), named⟩
    · rw [if_neg (by omega)]
      exact h.isVariable j low (by simp only at high; omega)
  · intro j low high
    change m'.slot? (p.firstReserved + j) = some Slot.free
    simp only at low
    rw [Memory.slot?_write written, if_neg (by omega)]
    exact h.free j (by omega) high

/-- What is loaded is held for a process that is created for it. -/
theorem of_load {start last : Int} {pid quantum : Int}
    (loaded : m.load? start P.lines = .ok (m', last)) :
    Holds m' P (ControlBlock.create pid quantum P.release start last) := by
  obtain ⟨hlast, low, -, -⟩ := Memory.load?_eq_ok loaded
  have read := Memory.slot?_load loaded
  refine ⟨hlast, Int.le_refl _, ?_, ?_, Int.le_refl _, show (0 : Int) ≤ 3 by decide, ?_, ?_⟩
  · simp only [ControlBlock.create]
    omega
  · intro i line hi
    have inside := (List.getElem?_eq_some_iff.1 hi).1
    change m'.slot? (start + i) = _
    rw [read, if_pos (by omega), show (start + (i : Int) - start).toNat = i by omega]
    rw [Memory.programSlots, List.getElem?_append_left (by simpa using inside), List.getElem?_map, hi]
    rfl
  · intro j nonneg none_bound
    simp only [ControlBlock.create] at none_bound
    omega
  · intro j low high
    have nonneg : 0 ≤ j := low
    have two : (Memory.reserved : Int) - 1 = 2 := rfl
    change m'.slot? (last - (Memory.reserved - 1) + j) = _
    rw [two, read, if_pos (by omega),
      show (last - 2 + j - start).toNat = P.lines.length + j.toNat by omega]
    rw [Memory.programSlots, List.getElem?_append_right (by simp)]
    have three : j.toNat < Memory.reserved := by
      show j.toNat < 3
      omega
    simp [three]

end Holds

end RoundRobin
