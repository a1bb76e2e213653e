import Mathlib.Data.Fintype.EquivFin
import Mathlib.Order.WellFounded
import RoundRobin.Proofs.Exclusion
import RoundRobin.Proofs.Finality
import RoundRobin.Proofs.Termination
import RoundRobin.Proofs.Vain
import RoundRobin.Proofs.Wakeup

/-!
# Acquisition in order

If every program signals only what it holds, waits for a resource only while all that it holds is
below it in some strict order, and holds nothing at its end (`Program.Ordered`), then there is no
deadlock, and a run ends with all processes terminated.

In a deadlock there would be a greatest resource for which somebody waits. Nobody is awake to take
its permit, so the permit is not free (`Watched`), and some process is between a wait for the
resource and a signal of it (`Fair`). That process is not at its end (`Punctual`), so it waits, for
a resource that is greater still.
-/

namespace RoundRobin

open Operation

instance : Fintype Resource := ⟨⟨Resource.all, by decide⟩, Resource.mem_all⟩

namespace Instruction

/-- Whether a resource is held after some instructions: of those that concern it, the last one is a
wait. -/
def holds (r : Resource) (l : List Instruction) : Bool :=
  (l.filter (concerns r)).getLast? = some (.semWait r)

/-- What may be done after some instructions by a program that acquires resources in an order. -/
def Allowed (lt : Resource → Resource → Prop) (l : List Instruction) : Instruction → Prop
  | semWait r => ∀ s, holds s l → lt s r
  | semSignal r => holds r l
  | _ => True

instance (lt : Resource → Resource → Prop) [DecidableRel lt] (l : List Instruction) :
    DecidablePred (Allowed lt l) := by
  intro i
  cases i <;> unfold Allowed <;> infer_instance

variable {lt : Resource → Resource → Prop} {r : Resource} {i : Instruction} {l : List Instruction}

/-- The last of the instructions that concern a resource, with a signal before all of them. -/
theorem getLast?_filter_concerns (r : Resource) (l : List Instruction) :
    (.semSignal r :: l.filter (concerns r)).getLast?
      = some (if holds r l then .semWait r else .semSignal r) := by
  rw [List.getLast?_cons, holds]
  cases last : (l.filter (concerns r)).getLast? with
  | none => rfl
  | some i =>
    have mem := List.mem_of_getLast? last
    rcases concerns_iff.1 (List.mem_filter.1 mem).2 with rfl | rfl <;> simp

/-- Waits and signals that alternate so far do so with one more instruction that is allowed. -/
theorem isChain_append_of_allowed [Std.Irrefl lt] (allowed : Allowed lt l i)
    (chain : (.semSignal r :: l.filter (concerns r)).IsChain (· ≠ ·)) :
    (.semSignal r :: (l ++ [i]).filter (concerns r)).IsChain (· ≠ ·) := by
  by_cases hi : concerns r i
  · rw [List.filter_append, List.filter_cons_of_pos hi, List.filter_nil, ← List.cons_append,
      List.isChain_append]
    refine ⟨chain, List.isChain_singleton i, fun last hlast next hnext => ?_⟩
    rw [getLast?_filter_concerns, Option.mem_some_iff] at hlast
    rw [List.head?_cons, Option.mem_some_iff] at hnext
    subst hlast hnext
    rcases concerns_iff.1 hi with rfl | rfl
    · have free : holds r l = false := by
        by_contra held
        exact irrefl r (allowed r (by simpa using held))
      simp [free]
    · have held : holds r l = true := allowed
      simp [held]
  · rwa [List.filter_append, List.filter_cons_of_neg hi, List.filter_nil, List.append_nil]

/-- Where waits and signals alternate, only a resource that is held was waited for more often than
signalled. -/
theorem holds_of_opens (chain : (.semSignal r :: l.filter (concerns r)).IsChain (· ≠ ·))
    (opened : opens r l) : holds r l := by
  have own : concerns r (.semSignal r) := by simp [concerns]
  have own' : concerns r (.semWait r) := by simp [concerns]
  rw [opens, decide_eq_true_eq, ← List.count_filter own, ← List.count_filter own'] at opened
  have last := getLast?_filter_concerns r l
  have members : ∀ j ∈ l.filter (concerns r), concerns r j := fun j hj => (List.mem_filter.1 hj).2
  by_contra free
  rw [if_neg free] at last
  -- up to a signal, or at the very beginning, there are as many waits as signals
  rcases List.eq_nil_or_concat (l.filter (concerns r)) with none_left | ⟨before, j, eq⟩
  · rw [none_left] at opened
    simp at opened
  · rw [List.concat_eq_append] at eq
    rw [eq] at last opened chain members
    rw [← List.cons_append, List.getLast?_concat, Option.some.injEq] at last
    subst last
    have balance := count_of_isChain own own
      (fun j hj => members j (List.mem_append_left _ hj)) chain
    simp [List.count_append] at balance opened
    omega

end Instruction

namespace Program

/-- The resources are acquired in an order: each instruction is allowed after those before it, and
nothing is held at the end. -/
structure Ordered (lt : Resource → Resource → Prop) (P : Program) : Prop where
  allowed : ∀ k (inside : k < P.instructions.length),
    Instruction.Allowed lt (P.instructions.take k) P.instructions[k]
  free : ∀ r, Instruction.holds r P.instructions = false

instance (lt : Resource → Resource → Prop) [DecidableRel lt] (P : Program) :
    Decidable (P.Ordered lt) :=
  decidable_of_iff ((∀ k (inside : k < P.instructions.length),
      Instruction.Allowed lt (P.instructions.take k) P.instructions[k]) ∧
      ∀ r, Instruction.holds r P.instructions = false)
    ⟨fun h => ⟨h.1, h.2⟩, fun h => ⟨h.1, h.2⟩⟩

namespace Ordered

variable {lt : Resource → Resource → Prop} [Std.Irrefl lt] {P : Program}

theorem isChain_take (h : P.Ordered lt) (r : Resource) (k : Nat) :
    (.semSignal r :: (P.instructions.take k).filter (Instruction.concerns r)).IsChain (· ≠ ·) := by
  induction k with
  | zero => exact List.isChain_singleton _
  | succ k ih =>
    by_cases inside : k < P.instructions.length
    · rw [← List.take_concat_get' _ _ inside]
      exact Instruction.isChain_append_of_allowed (h.allowed k inside) ih
    · rw [List.take_of_length_le (by omega)] at ih ⊢
      exact ih

theorem alternates (h : P.Ordered lt) (r : Resource) : P.Alternates r := by
  have chain := h.isChain_take r P.instructions.length
  rwa [List.take_length] at chain

end Ordered

end Program

theorem Reachable.steps {ps : List Program} {m : Machine} (h : Reachable ps m) {n : Nat}
    {m' : Machine} (taken : Machine.steps n m = .ok () m') : Reachable ps m' := by
  induction n generalizing m with
  | zero =>
    cases taken
    exact h
  | succ n ih =>
    rw [Machine.steps, bind_apply] at taken
    cases result : Machine.step m with
    | error fault m₁ =>
      rw [result] at taken
      cases taken
    | ok ran m₁ =>
      rw [result] at taken
      exact ih (after_of_ok result ▸ h.step) taken

/-! ### No deadlock -/

/-- If nobody is awake, the permit of a resource for which somebody waits is not free. -/
theorem Watched.permits_eq_zero {ps : List Program} {r : Resource} {s : Scheduler}
    (h : Watched ps r s) {key : Int} (waits : key ∈ s.queue (.blocked r))
    (asleep : ∀ other, ¬s.Awake other) : s.permits r = 0 := by
  refine h.permits.resolve_right fun free => ?_
  obtain ⟨other, awake, -⟩ := h.awake free key waits
  exact asleep other awake

/-- If the permit of a resource is not free, a process is between a wait for it and a signal. -/
theorem Fair.exists_inSection {ps : List Program} {r : Resource} {s : Scheduler} (h : Fair ps r s)
    (used_up : s.permits r = 0) :
    ∃ key p, s.process? key = some p ∧ Program.inSection ps r p.position := by
  have sum := h.2
  have some_inside : 0 < s.positions.countP (Program.inSection ps r) := by omega
  obtain ⟨x, hx, inside⟩ := List.countP_pos_iff.1 some_inside
  obtain ⟨p, hp, rfl⟩ := List.mem_map.1 hx
  obtain ⟨key, known⟩ := Scheduler.process?_of_mem hp
  exact ⟨key, p, known, inside⟩

/-- A set of resources that is not empty has one below no other. -/
theorem Resource.exists_last (lt : Resource → Resource → Prop) [IsStrictOrder Resource lt]
    {waited : Resource → Prop} (somebody : ∃ r, waited r) :
    ∃ r, waited r ∧ ∀ s, waited s → ¬lt r s := by
  have wellFounded := Finite.wellFounded_of_trans_of_irrefl (Function.swap lt)
  exact wellFounded.has_min {r | waited r} somebody

namespace Program.Ordered

variable {lt : Resource → Resource → Prop} [IsStrictOrder Resource lt] {ps : List Program}

/-- In a deadlock, whoever is between a wait for a resource and a signal of it waits for a greater
one. -/
theorem exists_greater (ordered : ∀ P ∈ ps, P.Ordered lt) {m : Machine} (sound : Sound ps m)
    (punctual : Punctual ps m.scheduler) (watched : ∀ r, Watched ps r m.scheduler)
    (stuck : m.isDeadlocked) {r : Resource} {key : Int} {p : ControlBlock}
    (known : m.scheduler.process? key = some p) (inside : Program.inSection ps r p.position) :
    ∃ s, key ∈ m.scheduler.queue (.blocked s) ∧ lt r s := by
  obtain ⟨P, hP, -⟩ := sound.layout.lookup known
  have h := ordered P (mem_of_under hP)
  have position := sound.position_eq known
  obtain ⟨idle, nobody, nothing, -⟩ := m.isDeadlocked_iff.1 stuck
  rw [inSection, position, behind, code_eq hP] at inside
  have held := Instruction.holds_of_opens (h.isChain_take r p.offset) inside
  obtain ⟨st, stands⟩ := sound.orderly.station key p known
  have mem := sound.orderly.mem_queue_of_station known stands
  cases st with
  | running =>
    have busy := sound.processor.running key mem
    rw [idle] at busy
    cases busy
  | ready =>
    rw [nobody] at mem
    cases mem
  | pending =>
    rw [nothing] at mem
    cases mem
  | terminated =>
    -- at its end a program holds nothing
    have at_end := (punctual key p known).terminated (ControlBlock.state_of_station? stands)
    rw [position, ahead, code_eq hP, List.drop_eq_nil_iff] at at_end
    rw [List.take_of_length_le at_end, h.free r] at held
    cases held
  | blocked s =>
    refine ⟨s, mem, ?_⟩
    obtain ⟨x, at_x, next⟩ := (watched s).asleep key mem
    rw [Scheduler.position?, known, Option.map_some, position, Option.some.injEq] at at_x
    subst at_x
    rw [ahead, code_eq hP, List.head?_drop] at next
    obtain ⟨before, at_offset⟩ := List.getElem?_eq_some_iff.1 next
    have allowed := h.allowed p.offset before
    rw [at_offset] at allowed
    exact allowed r held

theorem not_isDeadlocked (ordered : ∀ P ∈ ps, P.Ordered lt) {m : Machine} (h : Reachable ps m) :
    ¬m.isDeadlocked := by
  intro stuck
  have rests : m.Rests := by
    by_contra refused
    exact h.not_isDeadlocked_of_refused refused stuck
  obtain ⟨sound, -⟩ := h.sound rests
  obtain ⟨idle, nobody, -, somebody⟩ := m.isDeadlocked_iff.1 stuck
  have asleep : ∀ key, ¬m.scheduler.Awake key := by
    rintro key (ready | running)
    · rw [nobody] at ready
      cases ready
    · have busy := sound.processor.running key running
      rw [idle] at busy
      cases busy
  have waited : ∃ r key, key ∈ m.scheduler.queue (.blocked r) := by
    obtain ⟨key, waits⟩ := List.exists_mem_of_length_pos somebody
    obtain ⟨r, -, waits⟩ := List.mem_flatMap.1 waits
    exact ⟨r, key, waits⟩
  obtain ⟨r, ⟨key, waits⟩, last⟩ := Resource.exists_last lt waited
  have passed := Passed.reached h
  have fair := passed.fair rests fun P hP => (ordered P hP).alternates r
  have watched : ∀ r, Watched ps r m.scheduler := by
    intro r
    obtain ⟨s, seen, watched⟩ := passed.watched r
    exact seen.eq_of_rests rests ▸ watched
  have used_up := (watched r).permits_eq_zero waits asleep
  obtain ⟨holder, p, known, inside⟩ := fair.exists_inSection used_up
  obtain ⟨s, waits', greater⟩ := exists_greater ordered sound passed.punctual watched stuck
    known inside
  exact last s ⟨holder, waits'⟩ greater

end Program.Ordered

/-! ### The end of a run -/

/-- If no deadlock comes up after any number of steps, a run without a limit that does not end in a
fault consists of steps and ends with all processes terminated. -/
theorem Machine.Course.all_terminated {left taken : Nat} {m : Machine}
    {result : EStateM.Result Fault Machine Unit} (course : Machine.Course none left taken m result)
    (alive : ∀ n m₁, Machine.steps n m = .ok () m₁ → ¬m₁.isDeadlocked) {m' : Machine}
    (ended : result = .ok () m') :
    ∃ n, Machine.steps n m = .ok () m' ∧ m'.allTerminated := by
  induction course with
  | terminated all =>
    cases ended
    exact ⟨0, rfl, all⟩
  | @deadlocked left taken m some_left stuck => exact absurd stuck (alive 0 m rfl)
  | stopped some_left not_stuck reached => cases reached
  | unending | fault => cases ended
  | step took rest ih =>
    have alive' : ∀ n m₁, Machine.steps n _ = .ok () m₁ → ¬m₁.isDeadlocked := fun n m₁ taken =>
      alive (n + 1) m₁ ((Machine.steps_succ took n).trans taken)
    obtain ⟨n, taken, all⟩ := ih alive' ended
    exact ⟨n + 1, (Machine.steps_succ took n).trans taken, all⟩

section

variable {lt : Resource → Resource → Prop} [IsStrictOrder Resource lt] {ps : List Program}
  {m : Machine}

end

/-- The order in which the resources are listed. -/
def Resource.Before (r s : Resource) : Prop := Resource.all.idxOf r < Resource.all.idxOf s

instance : DecidableRel Resource.Before := fun _ _ => Nat.decLt _ _

instance : IsStrictTotalOrder Resource Resource.Before where
  irrefl := by decide
  trans := by decide
  trichotomous := by decide

end RoundRobin
