import Mathlib.Order.Bounds.Basic
import RoundRobin.Proofs.Slots

/-!
# Searching the memory by name

A search from one address to another finds the least address of the name among those of them that lie in
the memory (`Memory.finds_least`). The bounds may lie anywhere, since no address outside the memory has a
slot (`Memory.addressesOf_cut`). What a range of addresses comes to is put together from its two parts
(`Memory.first_union`): this carries the induction over the slots that are read one after another, and it
is also why a search can be parted at any address.
-/

namespace RoundRobin

/-- The least of some integers, if there are any. -/
def First (S : Set Int) : Option Int → Prop
  | some a => IsLeast S a
  | none => S = ∅

/-- The least of two sets is that of the one that lies in front, unless it is empty. -/
theorem First.union {S T : Set Int} {r r' : Option Int} (front : First S r) (back : First T r')
    (apart : ∀ a ∈ S, ∀ b ∈ T, a ≤ b) : First (S ∪ T) (r.or r') := by
  cases r with
  | none =>
    have empty : S = ∅ := front
    rwa [empty, Set.empty_union]
  | some a =>
    obtain ⟨member, least⟩ := front
    refine ⟨Or.inl member, fun b other => ?_⟩
    obtain front | back := other
    · exact least front
    · exact apart a member b back

namespace Memory

variable {m : Memory} {name : String} {low last c : Int} {high : Option Int} {r : Option Int}

/-- The addresses from one to another whose slots have the given name. -/
def addressesOf (m : Memory) (name : String) (low high : Int) : Set Int :=
  {a | low ≤ a ∧ a ≤ high ∧ ∃ s, m.slot? a = some s ∧ s.name = name}

/-- Looks for a name by reading so many slots one after another, from an address on. This fails if an address
outside the memory is read. -/
def scan (m : Memory) (name : String) (address : Int) : Nat → Except Fault (Option Int)
  | 0 => .ok none
  | count + 1 =>
    match m.read? address with
    | .ok s => if s.name = name then .ok (some address) else m.scan name (address + 1) count
    | .error fault => .error fault

/-- Looks for a name by reading the slots from `low` to `high` one after another; without a `high`, to the
end of the memory. -/
def search (m : Memory) (name : String) (low : Int) (high : Option Int) : Except Fault (Option Int) :=
  let first := max 0 low
  let last := min (high.getD (m.size - 1)) (m.size - 1)
  m.scan name first (last + 1 - first).toNat

/-! ### The addresses of a name -/

theorem addressesOf_cut (m : Memory) (name : String) (low last : Int) :
    m.addressesOf name (max 0 low) (min last (m.size - 1)) = m.addressesOf name low last := by
  ext a
  constructor
  · rintro ⟨above, below, slot⟩
    exact ⟨by omega, by omega, slot⟩
  · rintro ⟨above, below, s, at_a, same⟩
    have inside := bounds_of_slot? at_a
    exact ⟨by omega, by omega, s, at_a, same⟩

theorem addressesOf_eq_empty (empty : last < low) : m.addressesOf name low last = ∅ := by
  refine Set.eq_empty_of_forall_notMem ?_
  rintro a ⟨above, below, -⟩
  omega

/-- An end behind the memory is as good as the end of the memory. -/
theorem addressesOf_max (below : ∀ h ∈ high, c ≤ h) :
    m.addressesOf name low (max c (high.getD (m.size - 1)))
      = m.addressesOf name low (high.getD (m.size - 1)) := by
  cases high with
  | some h => rw [Option.getD_some, max_eq_right (below h rfl)]
  | none =>
    rw [Option.getD_none, ← addressesOf_cut, ← addressesOf_cut m name low (m.size - 1),
      min_eq_right (le_max_right c _), min_self]

theorem addressesOf_union (above : low ≤ c + 1) (below : c ≤ last) :
    m.addressesOf name low c ∪ m.addressesOf name (c + 1) last = m.addressesOf name low last := by
  ext a
  constructor
  · rintro (⟨from_low, to_c, slot⟩ | ⟨from_c, to_last, slot⟩)
    · exact ⟨from_low, by omega, slot⟩
    · exact ⟨by omega, to_last, slot⟩
  · rintro ⟨from_low, to_last, slot⟩
    by_cases front : a ≤ c
    · exact Or.inl ⟨from_low, front, slot⟩
    · exact Or.inr ⟨by omega, to_last, slot⟩

theorem first_union {r' : Option Int} (front : First (m.addressesOf name low c) r)
    (back : First (m.addressesOf name (c + 1) last) r') (above : low ≤ c + 1) (below : c ≤ last) :
    First (m.addressesOf name low last) (r.or r') := by
  rw [← addressesOf_union above below]
  exact front.union back fun a in_front b behind => by
    have := in_front.2.1
    have := behind.1
    omega

theorem first_slot {s : Slot} {a : Int} (at_a : m.slot? a = some s) :
    First (m.addressesOf name a a) (if s.name = name then some a else none) := by
  split_ifs with same
  · exact ⟨⟨le_rfl, le_rfl, s, at_a, same⟩, fun b other => other.1⟩
  · refine Set.eq_empty_of_forall_notMem ?_
    rintro b ⟨above, below, t, at_b, named⟩
    obtain rfl : b = a := by omega
    cases at_a.symm.trans at_b
    exact same named

/-! ### Finding the first of them -/

/-- Reading slots that lie in the memory does not fail, and finds the first of the name. -/
theorem scan_first (m : Memory) (name : String) {address last : Int} {count : Nat} (low : 0 ≤ address)
    (high : last < m.size) (span : (last + 1 - address).toNat = count) :
    ∃ r, m.scan name address count = .ok r ∧ First (m.addressesOf name address last) r := by
  induction count generalizing address with
  | zero => exact ⟨none, rfl, addressesOf_eq_empty (by omega)⟩
  | succ count ih =>
    obtain ⟨s, at_address⟩ := slot?_eq_some_iff.2 (show 0 ≤ address ∧ address < m.size by omega)
    obtain ⟨r, scanned, rest⟩ := ih (show 0 ≤ address + 1 by omega) (by omega)
    -- the slot that is read and the slots behind it are the two parts of the range
    refine ⟨_, ?_, first_union (first_slot at_address) rest (by omega) (by omega)⟩
    rw [scan, read?, at_address]
    dsimp only
    rw [scanned]
    split_ifs <;> rfl

theorem search_first (m : Memory) (name : String) (low : Int) (high : Option Int) :
    ∃ r, m.search name low high = .ok r ∧
      First (m.addressesOf name low (high.getD (m.size - 1))) r := by
  rw [← addressesOf_cut]
  exact scan_first m name (le_max_left 0 low) (by omega) rfl

theorem findAddress_of_first (first : First (m.addressesOf name low (high.getD (m.size - 1))) r) :
    m.findAddress name low high = r := by
  cases r with
  | none =>
    have empty : m.addressesOf name low (high.getD (m.size - 1)) = ∅ := first
    refine findAddress_eq_none fun b t above below at_b same => ?_
    have inside := bounds_of_slot? at_b
    have member : b ∈ m.addressesOf name low (high.getD (m.size - 1)) := by
      refine ⟨above, ?_, t, at_b, same⟩
      cases high with
      | none => exact Int.le_sub_one_of_lt inside.2
      | some h => exact below h rfl
    rw [empty] at member
    exact member
  | some a =>
    obtain ⟨⟨above, below, s, at_a, same⟩, least⟩ := first
    refine findAddress_eq_some at_a same above ?_ fun b t from_low before at_b same => ?_
    · rintro h rfl
      exact below
    · have := least ⟨from_low, by omega, t, at_b, same⟩
      omega

theorem first_findAddress (m : Memory) (name : String) (low : Int) (high : Option Int) :
    First (m.addressesOf name low (high.getD (m.size - 1))) (m.findAddress name low high) := by
  obtain ⟨r, -, first⟩ := search_first m name low high
  rwa [findAddress_of_first first]

/-- What a search by name from `low` to `high` comes to. -/
structure FindsLeast (m : Memory) (name : String) (low : Int) (high : Option Int) : Prop where
  /-- Reading slot after slot comes to the same. So no address outside the memory is read, which would be a
  fault. -/
  in_turn : m.search name low high = .ok (m.findAddress name low high)
  found_iff : ∀ a, m.findAddress name low high = some a ↔
    IsLeast (m.addressesOf name (max 0 low) (min (high.getD (m.size - 1)) (m.size - 1))) a
  none_iff : m.findAddress name low high = none ↔
    m.addressesOf name (max 0 low) (min (high.getD (m.size - 1)) (m.size - 1)) = ∅
  /-- The search can be parted: if nothing is found up to an address, it goes on behind it. -/
  parts : ∀ c, low ≤ c → (∀ h ∈ high, c ≤ h) → m.findAddress name low high
    = (m.findAddress name low (some c)).or (m.findAddress name (c + 1) high)

/-- A search by name finds the least address of the name among those from `low` to `high` that lie in the
memory, or nothing if there is none. -/
theorem finds_least (m : Memory) (name : String) (low : Int) (high : Option Int) :
    FindsLeast m name low high := by
  have first := first_findAddress m name low high
  refine ⟨?_, fun a => ?_, ?_, fun c above below => ?_⟩
  · obtain ⟨r, searched, first⟩ := search_first m name low high
    rw [searched, findAddress_of_first first]
  · rw [addressesOf_cut]
    refine ⟨fun found => ?_, fun least => findAddress_of_first least⟩
    rwa [found] at first
  · rw [addressesOf_cut]
    refine ⟨fun nothing => ?_, fun empty => findAddress_of_first empty⟩
    rwa [nothing] at first
  · -- without a `high` the address may lie behind the memory, so the range goes at least up to it
    have front : First (m.addressesOf name low c) _ := first_findAddress m name low (some c)
    have back := first_findAddress m name (c + 1) high
    rw [← addressesOf_max below] at back
    refine findAddress_of_first ?_
    rw [← addressesOf_max below]
    exact first_union front back (by omega) (le_max_left c _)

example : (⟨#[⟨"a", "1"⟩, ⟨"x", "2"⟩, ⟨"x", "3"⟩]⟩ : Memory).findAddress "x" (-5) (some 99) = some 1 := by
  decide

end Memory

end RoundRobin
