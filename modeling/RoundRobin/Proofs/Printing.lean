import RoundRobin.Proofs.Mishap
import RoundRobin.Proofs.Numeral

/-!
# Printing a range

Printing all integers between two names prints each of them once, in ascending order, as a numeral that
is read back as the integer; how the bounds themselves were written does not show. If one of the names
stands for no integer, then the first that does not is named in a complaint and nothing is printed.
Whatever comes of it, nothing changes but the log, and the turn goes on.
-/

namespace RoundRobin

open Operation

namespace Machine

theorem length_rangeOutputs (key low high : Int) :
    (rangeOutputs key low high).length = (high - low + 1).toNat := by
  rw [rangeOutputs, List.length_map, List.length_range]
  omega

theorem getElem?_rangeOutputs {key low high : Int} {i : Nat} (inside : i < (high - low + 1).toNat) :
    (rangeOutputs key low high)[i]? = some (.output key (Integer.text (low + i))) := by
  have index : (List.range (high + 1 - low).toNat)[i]? = some i := by
    rw [List.getElem?_range]
    omega
  rw [rangeOutputs, List.getElem?_map, index, Option.map_some]

/-- A name stands for the integer of which it was given the numeral. -/
theorem integerOf?_of_text {memory : Memory} {name : String} {n : Int}
    (found : memory.find name = some (Integer.text n)) (writable : Integer.isWritable n) :
    integerOf? memory name = some n := by
  rw [integerOf?, found, Option.bind_some, Integer.parse?_text writable]

theorem isWritable_of_integerOf? {memory : Memory} {name : String} {n : Int}
    (stands : integerOf? memory name = some n) : Integer.isWritable n := by
  obtain ⟨text, -, read⟩ := Option.bind_eq_some_iff.1 stands
  exact Integer.isWritable_of_parse? read

/-- The integers of a range between two names all have numerals. -/
theorem parse?_of_inside {memory : Memory} {first last : String} {low high : Int} {i : Nat}
    (one : integerOf? memory first = some low) (other : integerOf? memory last = some high)
    (inside : i < (high - low + 1).toNat) :
    Integer.parse? (Integer.text (low + i)) = some (low + i) :=
  Integer.parse?_text (Integer.isWritable_of_between (isWritable_of_integerOf? one)
    (isWritable_of_integerOf? other) (by omega) (by omega))

/-- What shows when a process prints all integers from the value of one name to that of another. -/
def rangeShown (key : Int) (memory : Memory) (first last : String) : List Event :=
  match integerOf? memory first, integerOf? memory last with
  | none, _ => [.notice (.complaint key (.notInteger first))]
  | some _, none => [.notice (.complaint key (.notInteger last))]
  | some low, some high => rangeOutputs key low high

end Machine

/-- Printing a range does nothing but what shows of it. -/
theorem Machine.execute_printFromTo {m : Machine} {key : Int} {p : ControlBlock}
    (known : m.scheduler.process? key = some p) (pid : m.scheduler.pidOf key = key)
    (first last : String) : execute key (.printFromTo first last) m
      = .ok true (m.recordAll (rangeShown key m.memory first last)) := by
  unfold rangeShown
  cases one : integerOf? m.memory first with
  | none => exact execute_of_grievance known pid (.noFirst one)
  | some low =>
    cases other : integerOf? m.memory last with
    | none => exact execute_of_grievance known pid (.noLast one other)
    | some high =>
      simp only [execute, printFromTo, bind_apply, get_apply, one, other, modify_apply, pure_apply]

/-- What comes of an instruction of the process under a key that prints all integers from the value of
one name to that of another. -/
structure PrintsRange (key : Int) (p : ControlBlock) (first last : String) (m : Machine)
    (es : List Event) : Prop where
  /-- Nothing is done but what shows of it, and the process may go on. -/
  done : Machine.execute key (.printFromTo first last) m = .ok true { m with log := m.log ++ es }
  /-- If both names stand for integers, then each integer between them is printed, both ends
  included, as its decimal numeral and not as the bounds are written. -/
  prints : ∀ low high, Machine.integerOf? m.memory first = some low →
    Machine.integerOf? m.memory last = some high → es.length = (high - low + 1).toNat ∧
      ∀ i : Nat, i < es.length → es[i]? = some (.output key (toString (low + i))) ∧
        Integer.parse? (toString (low + i)) = some (low + i)
  /-- A name that was given the decimal numeral of an integer stands for it, if that is not too long. -/
  of_numeral : ∀ (name : String) (n : Int), n.natAbs < 10 ^ Integer.maxDigits →
    m.memory.find name = some (toString n) → Machine.integerOf? m.memory name = some n
  noFirst : Machine.integerOf? m.memory first = none →
    es = [.notice (.complaint key (.notInteger first))]
  noLast : ∀ low, Machine.integerOf? m.memory first = some low →
    Machine.integerOf? m.memory last = none → es = [.notice (.complaint key (.notInteger last))]
  /-- If it is the instruction that the process faces, then the turn goes on with the next one. -/
  goes_on : m.Rests → ∀ slot, m.memory.instructionSlot? p.pc = some (slot, .printFromTo first last) →
    ∀ n, Machine.runInstructions key (n + 1) m = Machine.runInstructions key n
      (m.consumed key (m.announcement p slot.value ++ es ++ m.pauseAfter) 0)
  /-- If the pause after it is refused, the turn ends with it, as with any other instruction. -/
  refused : ¬m.Rests → ∀ slot, m.memory.instructionSlot? p.pc = some (slot, .printFromTo first last) →
    ∃ fault, fault.isPause ∧ ∀ n, Machine.runInstructions key (n + 1) m
      = .error fault (m.hindered key (m.announcement p slot.value ++ es) 0)

/-- Printing a range prints each integer of it once, in order, or complains of the first name that
stands for none. -/
theorem Passed.prints_range {ps : List Program} {m : Machine} {key : Int} {p : ControlBlock}
    (h : Passed ps m) (known : m.scheduler.process? key = some p) (first last : String) :
    ∃ es, PrintsRange key p first last m es := by
  have both : ∀ {low high}, Machine.integerOf? m.memory first = some low →
      Machine.integerOf? m.memory last = some high →
      Machine.rangeShown key m.memory first last = Machine.rangeOutputs key low high := by
    intro low high one other
    rw [Machine.rangeShown, one, other]
  have pid := h.pidOf known
  have told : ∀ line, Machine.execute key (.printFromTo first last)
      (m.recordAll (m.announcement p line)) = .ok true { m with
        log := m.log ++ (m.announcement p line ++ Machine.rangeShown key m.memory first last)
        inputs := m.inputs.drop 0 } := by
    intro line
    have done := Machine.execute_printFromTo (m := m.recordAll (m.announcement p line)) known pid
      first last
    have log : m.log ++ m.announcement p line ++ Machine.rangeShown key m.memory first last
        = m.log ++ (m.announcement p line ++ Machine.rangeShown key m.memory first last) :=
      Array.toList_inj.1 (by simp)
    exact done.trans (congrArg (fun log => EStateM.Result.ok true { m with log }) log)
  refine ⟨Machine.rangeShown key m.memory first last,
    Machine.execute_printFromTo known pid first last, ?_, ?_, ?_, ?_, ?_, ?_⟩
  · intro low high one other
    rw [both one other, Machine.length_rangeOutputs]
    refine ⟨rfl, fun i inside => ?_⟩
    rw [← Integer.text_eq_toString]
    exact ⟨Machine.getElem?_rangeOutputs inside, Machine.parse?_of_inside one other inside⟩
  · intro name n short found
    rw [← Integer.text_eq_toString] at found
    exact Machine.integerOf?_of_text found ((Integer.isWritable_iff n).2 short)
  · intro bad
    rw [Machine.rangeShown, bad]
  · intro low good bad
    rw [Machine.rangeShown, good, bad]
  · intro rests slot at_pc n
    exact Machine.runInstructions_of_shown known at_pc (told slot.value) rests n
  · intro refused slot at_pc
    exact Machine.runInstructions_of_refused known at_pc (told slot.value) refused

/-- A range from a negative number to one that is written with its sign. -/
theorem Passed.prints_range_signed : ∃ m p es,
    Passed [⟨["assign a -1", "assign b +1", "printFromTo a b"], 0⟩] m ∧
    m.scheduler.process? 1 = some p ∧ PrintsRange 1 p "a" "b" m es ∧ es.length = 3 ∧
    es[0]? = some (.output 1 "-1") ∧ es[2]? = some (.output 1 "1") := by
  have made := Reachable.fresh 2 20 (by decide) (by decide)
  have loaded := made.after_createProcess ["assign a -1", "assign b +1", "printFromTo a b"] 0
    (by decide) (by decide)
  have passed := Passed.within loaded (k := 2) (by decide +kernel)
  obtain ⟨p, known⟩ := passed.layout.process?_of_under
    (show Program.under _ 1 = some ⟨["assign a -1", "assign b +1", "printFromTo a b"], 0⟩ from rfl)
  obtain ⟨es, range⟩ := passed.prints_range known "a" "b"
  obtain ⟨length, each⟩ := range.prints (-1) 1 (by decide +kernel) (by decide +kernel)
  exact ⟨_, p, es, passed, known, range, length, (each 0 (by omega)).1, (each 2 (by omega)).1⟩

end RoundRobin
