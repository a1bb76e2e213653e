import Mathlib.Logic.Function.Basic
import RoundRobin.Machine.Execute
import RoundRobin.Proofs.Load
import RoundRobin.Proofs.Scene

/-!
# Reserved slots

The slots reserved for a process hold the variables that it has bound, in the order in which it bound
them, and are free besides (`Reserves`). This is kept when a variable is bound or set and when a program
is loaded. The slots of a process that was loaded earlier come first in memory. So a search by name finds
the first variable of the name of the earliest process that has one (`Reserves.addressOf_eq_some`), and a
search of the slots reserved for a process finds the first that the process itself has
(`Reserves.textOf_eq`).
-/

namespace RoundRobin

/-- Every process has bound the variables that are given under its key, and its reserved slots hold
these, in order, and nothing else. -/
structure Reserves (m : Machine) (f : Int → List Slot) : Prop where
  bound : ∀ key p, m.scheduler.process? key = some p → p.bound = (f key).length
  slots : ∀ key p, m.scheduler.process? key = some p → ∀ j : Nat, j < 3 →
    m.memory.slot? (p.firstReserved + j) = some ((f key)[j]?.getD Slot.free)

/-- Going on to the next instruction changes nothing but where a process stands. -/
theorem ControlBlock.advance_frame (p : ControlBlock) :
    p.advance.bound = p.bound ∧ p.advance.upperBound = p.upperBound := by
  unfold advance
  split <;> exact ⟨rfl, rfl⟩

namespace Layout

variable {ps : List Program} {m : Machine} {key other : Int} {p q : ControlBlock}

/-- The slots reserved for a process lie before those reserved for every later one. -/
theorem reserved_before (h : Layout ps m) (hp : m.scheduler.process? key = some p)
    (hq : m.scheduler.process? other = some q) (later : key < other) :
    p.firstReserved + 3 ≤ q.firstReserved := by
  have before := h.before hp hq later
  obtain ⟨P, -, placed⟩ := h.lookup hp
  obtain ⟨Q, -, placed'⟩ := h.lookup hq
  have first := placed.holds.firstReserved_eq
  have upper := placed.holds.upper
  have first' := placed'.holds.firstReserved_eq
  omega

/-- The slots reserved for two processes lie apart. -/
theorem reserved_apart (h : Layout ps m) (hp : m.scheduler.process? key = some p)
    (hq : m.scheduler.process? other = some q) (ne : other ≠ key) :
    q.firstReserved + 3 ≤ p.firstReserved ∨ p.firstReserved + 3 ≤ q.firstReserved :=
  (Int.lt_or_gt_of_ne ne).imp (h.reserved_before hq hp) (h.reserved_before hp hq)

end Layout

namespace Reserves

variable {ps : List Program} {m m' : Machine} {f : Int → List Slot} {key : Int} {p : ControlBlock}
  {name : String} {front back : List Slot} {s s' : Slot} {memory : Memory}

theorem of_processes (h : Reserves m f) (memory : m'.memory = m.memory)
    (kept : ∀ key p', m'.scheduler.process? key = some p' →
      ∃ p, m.scheduler.process? key = some p ∧ p'.bound = p.bound ∧ p'.upperBound = p.upperBound) :
    Reserves m' f := by
  refine ⟨fun key p' known' => ?_, fun key p' known' => ?_⟩
  · obtain ⟨p, known, bound, -⟩ := kept key p' known'
    exact bound.trans (h.bound key p known)
  · obtain ⟨p, known, -, upper⟩ := kept key p' known'
    rw [memory, ControlBlock.firstReserved, upper]
    exact h.slots key p known

theorem of_places (h : Reserves m f) (memory : m'.memory = m.memory)
    (places : m'.scheduler.places = m.scheduler.places) : Reserves m' f :=
  h.of_processes memory fun key p' known' => by
    obtain ⟨p, known, place⟩ := Scheduler.place_of_places places known'
    exact ⟨p, known, (congrArg ControlBlock.bound place :), (congrArg ControlBlock.upperBound place :)⟩

/-- A change of one process that leaves it its reserved slots and variables does not matter. -/
theorem change (h : Reserves m f) {other : Int} {g : ControlBlock → ControlBlock}
    (same : ∀ p, (g p).bound = p.bound ∧ (g p).upperBound = p.upperBound) :
    Reserves (m.change other g) f :=
  h.of_processes rfl fun key p' known' => by
    obtain ⟨p, known, ⟨-, rfl⟩ | ⟨-, rfl⟩⟩ := Scheduler.process?_amend_cases known'
    · exact ⟨p, known, same p⟩
    · exact ⟨p', known, rfl, rfl⟩

/-! ### Changes of variables -/

/-- A process binds one more variable. -/
theorem bind (h : Reserves m f) (layout : Layout ps m) (known : m.scheduler.process? key = some p)
    (room : (f key).length < 3) (written : m.memory.write? p.nextSlot s = .ok memory) :
    Reserves { m with
      memory, scheduler := m.scheduler.amend key fun p => { p with bound := p.bound + 1 } }
      (Function.update f key (f key ++ [s])) := by
  have bound := h.bound key p known
  have next : p.nextSlot = p.firstReserved + (f key).length := by
    rw [ControlBlock.nextSlot, bound]
  have read := Memory.slot?_write written
  refine ⟨fun k q hq => ?_, fun k q hq j small => ?_⟩
  · by_cases same : k = key
    · subst same
      cases (Scheduler.process?_amend_self known _).symm.trans hq
      simp [bound]
    · rw [Function.update_of_ne same]
      exact h.bound k q ((Scheduler.process?_amend_of_ne _ same _).symm.trans hq)
  · by_cases same : k = key
    · subst same
      cases (Scheduler.process?_amend_self known _).symm.trans hq
      have first : ({ p with bound := p.bound + 1 } : ControlBlock).firstReserved
          = p.firstReserved := rfl
      dsimp only
      rw [Function.update_self, first, read, next]
      by_cases new : j = (f k).length
      · rw [if_pos (by omega), new, List.getElem?_concat_length]
        rfl
      · rw [if_neg (by omega), h.slots k p known j small]
        by_cases old : j < (f k).length
        · rw [List.getElem?_append_left old]
        · rw [List.getElem?_eq_none (by omega), List.getElem?_eq_none (by simp; omega)]
    · have known' := (Scheduler.process?_amend_of_ne _ same _).symm.trans hq
      have apart := layout.reserved_apart known known' same
      dsimp only
      rw [Function.update_of_ne same, read, next, if_neg (by omega)]
      exact h.slots k q known' j small

/-- A variable of a process is set. -/
theorem store (h : Reserves m f) (layout : Layout ps m) (known : m.scheduler.process? key = some p)
    (split : f key = front ++ s :: back)
    (written : m.memory.write? (p.firstReserved + front.length) s' = .ok memory) :
    Reserves { m with memory } (Function.update f key (front ++ s' :: back)) := by
  have bound := h.bound key p known
  have read := Memory.slot?_write written
  obtain ⟨P, hP, placed⟩ := layout.lookup known
  have few := placed.holds.bound_le
  rw [split, List.length_append, List.length_cons] at bound
  refine ⟨fun k q hq => ?_, fun k q hq j small => ?_⟩
  · by_cases same : k = key
    · subst same
      cases known.symm.trans hq
      simp [bound]
    · rw [Function.update_of_ne same]
      exact h.bound k q hq
  · have before := h.slots k q hq j small
    dsimp only
    rw [read]
    by_cases same : k = key
    · subst same
      cases known.symm.trans hq
      rw [Function.update_self]
      by_cases here : j = front.length
      · rw [if_pos (by omega), here, List.getElem?_append_right (Nat.le_refl _), Nat.sub_self]
        rfl
      · have row : front ++ s' :: back = (f k).set front.length s' := by simp [split]
        rw [if_neg (by omega), before, row, List.getElem?_set_ne (Ne.symm here)]
    · have apart := layout.reserved_apart known hq same
      rw [Function.update_of_ne same, if_neg (by omega), before]

/-- A program is loaded, and nothing is bound yet by its process. -/
theorem load (h : Reserves m f) (layout : Layout ps m) {P : Program} (load : Load P m m')
    (nothing : f m.scheduler.processes.nextKey = []) : Reserves m' f := by
  have layout' := layout.load load
  obtain @⟨memory, last, s, released, loaded, arrival⟩ := load
  refine ⟨fun k q hq => ?_, fun k q hq j small => ?_⟩
  · rw [arrival.process?] at hq
    split at hq
    · rename_i new
      cases hq
      rw [new, nothing]
      rfl
    · exact h.bound k q hq
  · have known := hq
    rw [arrival.process?] at hq
    split at hq
    · rename_i new
      obtain ⟨Q, hQ, placed⟩ := layout'.lookup known
      have free := placed.holds.free j
      cases hq
      rw [new, nothing]
      exact free (Int.natCast_nonneg j) (by omega)
    · obtain ⟨Q, hQ, placed⟩ := layout.lookup hq
      have before := layout.upper_lt hq
      have first := placed.holds.firstReserved_eq
      have upper := placed.holds.upper
      have next := layout.next
      have slot := Memory.slot?_load loaded (q.firstReserved + j)
      rw [if_neg (by omega)] at slot
      exact slot.trans (h.slots k q hq j small)

/-! ### Searches -/

/-- A variable of a process stands in its reserved slots where it stands among its variables. -/
theorem slot?_of_getElem? (h : Reserves m f) (layout : Layout ps m)
    (known : m.scheduler.process? key = some p) {j : Nat} (at_j : (f key)[j]? = some s) :
    j < 3 ∧ m.memory.slot? (p.firstReserved + j) = some s := by
  obtain ⟨P, hP, placed⟩ := layout.lookup known
  have few := placed.holds.bound_le
  rw [h.bound key p known] at few
  have inside := (List.getElem?_eq_some_iff.1 at_j).1
  have slot := h.slots key p known j (by omega)
  rw [at_j] at slot
  exact ⟨by omega, slot⟩

/-- Every variable in memory is one of a process. -/
theorem exists_of_isVariable (h : Reserves m f) (layout : Layout ps m) {a : Int}
    (at_a : m.memory.slot? a = some s) (isVariable : s.IsVariable) :
    ∃ key p, ∃ j : Nat, m.scheduler.process? key = some p ∧ (f key)[j]? = some s ∧
      a = p.firstReserved + j := by
  obtain ⟨key, p, j, known, small, rfl⟩ := layout.reserved_of_isVariable at_a isVariable
  have slot := h.slots key p known j small
  rw [at_a, Option.some.injEq] at slot
  cases at_j : (f key)[j]? with
  | some t =>
    rw [at_j] at slot
    exact ⟨key, p, j, known, slot ▸ at_j, rfl⟩
  | none =>
    rw [at_j, Option.getD_none] at slot
    exact absurd (slot ▸ isVariable) Slot.not_isVariable_free

/-- A search by name finds the first variable of the name of the earliest process that has one. -/
theorem addressOf_eq_some (h : Reserves m f) (layout : Layout ps m)
    (known : m.scheduler.process? key = some p) (isVariable : s.IsVariable)
    (split : f key = front ++ s :: back) (new : ∀ t ∈ front, t.name ≠ s.name)
    (earliest : ∀ k, k < key → ∀ t ∈ f k, t.name ≠ s.name) :
    m.memory.addressOf s.name = some (p.firstReserved + front.length) := by
  have at_front : (f key)[front.length]? = some s := by simp [split]
  obtain ⟨small, slot⟩ := h.slot?_of_getElem? layout known at_front
  refine Memory.addressOf_eq_some slot rfl fun b t before at_b same => ?_
  have variable_t : t.IsVariable := by rw [Slot.IsVariable, same]; exact isVariable
  obtain ⟨k, q, j, hq, at_j, rfl⟩ := h.exists_of_isVariable layout at_b variable_t
  obtain ⟨small', -⟩ := h.slot?_of_getElem? layout hq at_j
  rcases Int.lt_trichotomy k key with earlier | rfl | later
  · exact earliest k earlier t (List.mem_of_getElem? at_j) same
  · cases known.symm.trans hq
    rw [split, List.getElem?_append_left (by omega)] at at_j
    exact new t (List.mem_of_getElem? at_j) same
  · have apart := layout.reserved_before known hq later
    omega

theorem addressOf_eq_none (h : Reserves m f) (layout : Layout ps m) (nonempty : name ≠ "")
    (allowed : Slot.isReservedName name = false) (nobody : ∀ k, ∀ t ∈ f k, t.name ≠ name) :
    m.memory.addressOf name = none :=
  Memory.addressOf_eq_none fun a t at_a same => by
    subst same
    obtain ⟨k, q, j, hq, at_j, -⟩ := h.exists_of_isVariable layout at_a ⟨nonempty, allowed⟩
    exact nobody k t (List.mem_of_getElem? at_j) rfl

/-- A search of the slots reserved for a process finds the first variable of the name that it has. -/
theorem ownAddress_eq_some (h : Reserves m f) (layout : Layout ps m)
    (known : m.scheduler.process? key = some p) (split : f key = front ++ s :: back)
    (new : ∀ t ∈ front, t.name ≠ s.name) :
    m.memory.findAddress s.name p.firstReserved (some p.upperBound)
      = some (p.firstReserved + front.length) := by
  have two : (Memory.reserved : Int) - 1 = 2 := rfl
  have first : p.firstReserved = p.upperBound - (Memory.reserved - 1) := rfl
  have at_front : (f key)[front.length]? = some s := by simp [split]
  obtain ⟨small, slot⟩ := h.slot?_of_getElem? layout known at_front
  refine Memory.findAddress_eq_some slot rfl (by omega)
    (fun _ upper => by cases upper; omega) fun b t above before at_b => ?_
  have inside : (b - p.firstReserved).toNat < front.length := by omega
  have at_j : (f key)[(b - p.firstReserved).toNat]? = some front[(b - p.firstReserved).toNat] := by
    rw [split, List.getElem?_append_left inside, List.getElem?_eq_getElem inside]
  obtain ⟨-, slot'⟩ := h.slot?_of_getElem? layout known at_j
  rw [show p.firstReserved + ((b - p.firstReserved).toNat : Int) = b by omega, at_b] at slot'
  cases slot'
  exact new _ (List.getElem_mem inside)

theorem ownAddress_eq_none (h : Reserves m f) (known : m.scheduler.process? key = some p)
    (allowed : Slot.isReservedName name = false) (nobody : ∀ t ∈ f key, t.name ≠ name) :
    m.memory.findAddress name p.firstReserved (some p.upperBound) = none := by
  have two : (Memory.reserved : Int) - 1 = 2 := rfl
  have first : p.firstReserved = p.upperBound - (Memory.reserved - 1) := rfl
  refine Memory.findAddress_eq_none fun b t above below at_b => ?_
  have low := below _ rfl
  have slot := h.slots key p known (b - p.firstReserved).toNat (by omega)
  rw [show p.firstReserved + ((b - p.firstReserved).toNat : Int) = b by omega, at_b,
    Option.some.injEq] at slot
  cases at_j : (f key)[(b - p.firstReserved).toNat]? with
  | some s =>
    rw [slot, at_j]
    exact nobody s (List.mem_of_getElem? at_j)
  | none =>
    rw [slot, at_j]
    rintro rfl
    exact absurd allowed (by decide)

/-- What a process writes for a name is the value of the first variable of the name that it has
itself, or else the name. -/
theorem textOf_eq (h : Reserves m f) (layout : Layout ps m) (known : m.scheduler.process? key = some p)
    (allowed : Slot.isReservedName name = false) : Machine.textOf m.memory p name
      = (((f key).find? fun s => s.name == name).map Slot.value).getD name := by
  unfold Machine.textOf
  cases found : (f key).find? fun s => s.name == name with
  | none =>
    have nobody := List.find?_eq_none.1 found
    rw [h.ownAddress_eq_none known allowed fun t ht => by simpa using nobody t ht]
    rfl
  | some s =>
    obtain ⟨named, front, back, split, new⟩ := List.find?_eq_some_iff_append.1 found
    obtain rfl : s.name = name := beq_iff_eq.1 named
    have at_front : (f key)[front.length]? = some s := by simp [split]
    obtain ⟨-, slot⟩ := h.slot?_of_getElem? layout known at_front
    rw [h.ownAddress_eq_some layout known split fun t ht => by simpa using new t ht, Option.bind_some,
      slot]
    rfl

end Reserves

end RoundRobin
