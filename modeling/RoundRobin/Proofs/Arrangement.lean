import RoundRobin.Proofs.Finality

/-!
# The arrangement of the memory

How the memory is shared out between requests, wherever they led (`Arranged`). The processes are
numbered from one, and their slots follow one another from address zero up to the next address, in
the order of their numbers. Each process keeps its lines as they were loaded, has so many variables
in the first of its reserved slots and leaves the others free, and is somewhere in its program, at
the end exactly if it is terminated or there are no lines (`Region`). From the next address on
nothing was ever written.
-/

namespace RoundRobin

/-- The slots of the process that was made for a program. -/
structure Region (m : Machine) (P : Program) (p : ControlBlock) : Prop where
  inside : 0 ≤ p.lowerBound ∧ p.upperBound < m.memory.size
  upper : p.upperBound = p.lowerBound + P.lines.length + 2
  line : ∀ (i : Nat) line, P.lines[i]? = some line →
    m.memory.slot? (p.lowerBound + i) = some ⟨Slot.instructionName, line⟩ ∧
    m.memory.instructionSlot? (p.lowerBound + i)
      = some (⟨Slot.instructionName, line⟩, Instruction.decode line)
  bound : 0 ≤ p.bound ∧ p.bound ≤ 3
  named : ∀ j : Int, 0 ≤ j → j < p.bound →
    ∃ s, m.memory.slot? (p.upperBound - 2 + j) = some s ∧
      s.name ≠ "" ∧ s.name ≠ Slot.instructionName ∧ s.name ≠ Slot.freeName
  free : ∀ j : Int, p.bound ≤ j → j < 3 →
    m.memory.slot? (p.upperBound - 2 + j) = some ⟨Slot.freeName, ""⟩
  pc : p.lowerBound ≤ p.pc ∧ p.pc ≤ p.lowerBound + P.lines.length
  at_end : p.pc = p.lowerBound + P.lines.length ↔ p.state = .terminated ∨ P.lines = []

/-- The memory is shared out among the processes of the programs that were loaded. -/
structure Arranged (ps : List Program) (m : Machine) : Prop where
  numbers : m.scheduler.processes.map ControlBlock.pid
    = (List.range ps.length).map fun (i : Nat) => (i : Int) + 1
  first : ∀ p, m.scheduler.process? 1 = some p → p.lowerBound = 0
  adjacent : ∀ key p q, m.scheduler.process? key = some p →
    m.scheduler.process? (key + 1) = some q → q.lowerBound = p.upperBound + 1
  last : ∀ p, m.scheduler.process? ps.length = some p → p.upperBound = m.nextAddress - 1
  empty : ps = [] → m.nextAddress = 0
  fits : m.nextAddress ≤ m.memory.size
  region : ∀ key P p, Program.under ps key = some P → m.scheduler.process? key = some p →
    Region m P p
  unused : ∀ a : Int, m.nextAddress ≤ a → a < m.memory.size →
    m.memory.slot? a = some ⟨"", ""⟩

namespace Slot

/-- A variable has a name, which no other kind of slot has. -/
theorem IsVariable.name_ne {s : Slot} (h : s.IsVariable) :
    s.name ≠ "" ∧ s.name ≠ instructionName ∧ s.name ≠ freeName := by
  obtain ⟨nonempty, allowed⟩ := h
  rw [isReservedName, Bool.or_eq_false_iff, beq_eq_false_iff_ne, beq_eq_false_iff_ne] at allowed
  exact ⟨nonempty, allowed⟩

end Slot

namespace Memory

theorem instructionSlot?_of_line {m : Memory} {a : Int} {line : String}
    (h : m.slot? a = some (Slot.ofLine line)) :
    m.instructionSlot? a = some (Slot.ofLine line, Instruction.decode line) := by
  rw [instructionSlot?, h, Option.bind_some, Slot.instruction?_ofLine]
  rfl

end Memory

namespace Program

variable {ps : List Program} {P : Program} {key : Int}

/-- A program starts where the one before ends. -/
theorem start_succ (h : under ps key = some P) : start ps (key + 1) = start ps key + P.extent := by
  have positive := (under_eq_some_iff.1 h).1
  rw [start_add_extent h, start, show (key + 1 - 1).toNat = (key - 1).toNat + 1 by omega]

/-- The last program ends where nothing is loaded any more. -/
theorem start_add_extent_last (h : under ps ps.length = some P) :
    start ps ps.length + P.extent = extents ps := by
  have positive := (under_eq_some_iff.1 h).1
  rw [start_add_extent h, show ((ps.length : Int) - 1).toNat + 1 = ps.length by omega,
    List.take_length]

end Program

theorem Sound.numbers {ps : List Program} {m : Machine} (h : Sound ps m) :
    m.scheduler.processes.map ControlBlock.pid
    = (List.range ps.length).map fun (i : Nat) => (i : Int) + 1 := by
  rw [← h.layout.length]
  apply List.ext_getElem?
  intro i
  rw [List.getElem?_map, List.getElem?_map]
  by_cases inside : i < m.scheduler.processes.length
  · have known := (m.scheduler.process?_succ i).trans (List.getElem?_eq_getElem inside)
    rw [List.getElem?_eq_getElem inside, List.getElem?_range inside]
    exact congrArg some (h.orderly.pid _ _ known)
  · rw [List.getElem?_eq_none (by omega), List.getElem?_eq_none (by simpa using inside)]
    rfl

namespace Layout

variable {ps : List Program} {m : Machine} {key : Int} {p q : ControlBlock} {P : Program}

theorem upperBound_eq (h : Layout ps m) (hP : Program.under ps key = some P)
    (known : m.scheduler.process? key = some p) :
    p.upperBound = (Program.start ps key + P.extent : Nat) - 1 := by
  have placed := h.placed key P p hP known
  have extent : P.extent = P.lines.length + 3 := rfl
  have upper := placed.holds.upper
  have lower := placed.lower
  omega

theorem adjacent (h : Layout ps m) (known : m.scheduler.process? key = some p)
    (next : m.scheduler.process? (key + 1) = some q) : q.lowerBound = p.upperBound + 1 := by
  obtain ⟨P, hP, -⟩ := h.lookup known
  obtain ⟨Q, hQ, placed⟩ := h.lookup next
  rw [placed.lower, Program.start_succ hP, h.upperBound_eq hP known]
  omega

theorem upperBound_last (h : Layout ps m) (known : m.scheduler.process? ps.length = some p) :
    p.upperBound = m.nextAddress - 1 := by
  obtain ⟨P, hP, -⟩ := h.lookup known
  rw [h.upperBound_eq hP known, Program.start_add_extent_last hP, h.next]

end Layout

/-- Wherever requests lead, faults within a turn included, the memory is shared out among the
processes. -/
theorem Reachable.arranged {ps : List Program} {m : Machine} (h : Reachable ps m) :
    Arranged ps m := by
  obtain ⟨s, kept⟩ := h.kept
  have layout := kept.layout
  have next := layout.next
  have fits : m.nextAddress ≤ m.memory.size := next ▸ layout.fits
  refine ⟨?_, ?_, fun key p q => layout.adjacent, fun p => layout.upperBound_last, ?_, fits, ?_, ?_⟩
  · rw [kept.mirrors.processes]
    exact kept.sound.numbers
  · intro p known
    obtain ⟨P, -, placed⟩ := layout.lookup known
    exact placed.lower
  · rintro rfl
    exact next
  · intro key P p hP known
    have placed := layout.placed key P p hP known
    have holds := placed.holds
    have before := layout.upper_lt known
    have low := placed.lower
    have reserved : p.firstReserved = p.upperBound - 2 := rfl
    refine ⟨⟨by omega, by omega⟩, holds.upper, fun i line hi => ?_,
      ⟨holds.bound_nonneg, holds.bound_le⟩, fun j nonneg named => ?_, fun j => holds.free j,
      ⟨holds.lower_le_pc, holds.pc_le⟩, h.at_end_iff hP known⟩
    · have slot := holds.line i line hi
      exact ⟨slot, Memory.instructionSlot?_of_line slot⟩
    · obtain ⟨s, slot, isVariable⟩ := holds.isVariable j nonneg named
      exact ⟨s, slot, isVariable.name_ne⟩
  · intro a after inside
    exact layout.unused a (next ▸ after) inside

/-- A process whose turn ended in a fault has one variable and keeps the processor in front of its
second line. -/
theorem Reachable.arranged_fault : ∃ m,
    Reachable [⟨["assign x 5", "assign y input"], 0⟩, ⟨["print y"], 0⟩] m ∧ m.current = some 1 ∧
      m.memory.slot? 2 = some ⟨"x", "5"⟩ ∧ m.nextAddress = 9 ∧
      Arranged [⟨["assign x 5", "assign y input"], 0⟩, ⟨["print y"], 0⟩] m := by
  have made := Reachable.fresh 2 10 (by decide) (by decide)
  have first := made.after_createProcess ["assign x 5", "assign y input"] 0 (by decide) (by decide)
  have second := first.after_createProcess ["print y"] 0 (by decide) (by decide +kernel)
  exact ⟨_, second.step, by decide +kernel, by decide +kernel, by decide +kernel,
    second.step.arranged⟩

end RoundRobin
