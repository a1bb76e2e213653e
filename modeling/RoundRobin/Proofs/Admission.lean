import Mathlib.Data.List.Perm.Basic
import RoundRobin.Proofs.Station

/-!
# Admission

Which of the pending processes a promotion admits to the ready queue. It is a stable partition: those
that are due go to the tail of the ready queue, in their order, and the others stay, in theirs. This
holds of any scheduler whose pending numbers all stand for processes, also if a number is pending
several times or stands in other queues as well, since a promotion looks at the pending queue as it was
at first (`Scheduler.promoteEach_eq`). So a second promotion at the same time does nothing, and an
earlier one makes no difference but to the order in the ready queue (`Scheduler.promote_partitions`).
-/

namespace RoundRobin

namespace ProcessTable

variable (t : ProcessTable)

/-- The table in which the processes under some keys are ready. -/
def readied (keys : List Int) : ProcessTable :=
  List.mapIdx (fun (i : Nat) p => if (i + 1 : Int) ∈ keys then { p with state := .ready } else p) t

/-- A table is known by what is kept under each key. -/
theorem eq_of_process? {t t' : ProcessTable} (same : ∀ key, t.process? key = t'.process? key) :
    t = t' := by
  apply List.ext_getElem?
  intro i
  have at_key := same (i + 1)
  unfold process? at at_key
  rwa [if_pos (by omega), if_pos (by omega), show ((i : Int) + 1 - 1).toNat = i by omega] at at_key

theorem process?_readied (keys : List Int) (key : Int) : (t.readied keys).process? key
    = (t.process? key).map fun p => if key ∈ keys then { p with state := .ready } else p := by
  unfold process? readied
  by_cases positive : 0 < key
  · rw [if_pos positive, if_pos positive, List.getElem?_mapIdx,
      show ((key - 1).toNat : Int) + 1 = key by omega]
  · rw [if_neg positive, if_neg positive]
    rfl

theorem readied_nil : t.readied [] = t := by
  apply eq_of_process?
  intro key
  rw [process?_readied]
  cases t.process? key <;> simp

theorem readied_readied (keys more : List Int) :
    (t.readied keys).readied more = t.readied (keys ++ more) := by
  apply eq_of_process?
  intro key
  rw [process?_readied, process?_readied, process?_readied, Option.map_map]
  congr 1
  funext p
  by_cases first : key ∈ keys <;> by_cases second : key ∈ more <;> simp [first, second]

/-- One process becomes ready by a change of its state. -/
theorem readied_singleton (key : Int) :
    t.readied [key] = t.amend key fun p => { p with state := .ready } := by
  apply eq_of_process?
  intro k
  rw [process?_readied, process?_amend]
  by_cases same : k = key
  · simp [same]
  · cases t.process? k <;> simp [same]

theorem readied_congr {keys keys' : List Int} (same : ∀ key, key ∈ keys ↔ key ∈ keys') :
    t.readied keys = t.readied keys' := by
  apply eq_of_process?
  intro key
  rw [process?_readied, process?_readied]
  simp only [same]

end ProcessTable

namespace Scheduler

/-- Whether the release time of the process under a key has come. -/
def due (now : Int) (s : Scheduler) (key : Int) : Bool :=
  (s.process? key).any fun p => decide (p.releaseTime ≤ now)

theorem due_eq {s : Scheduler} {key : Int} {p : ControlBlock} (hp : s.process? key = some p)
    (now : Int) : s.due now key = decide (p.releaseTime ≤ now) := by
  rw [due, hp]
  rfl

section

variable {s s' : Scheduler} {now : Int}

/-- What is due does not depend on where the processes stand. -/
theorem due_congr (same : ∀ key, (s'.process? key).map ControlBlock.releaseTime
    = (s.process? key).map ControlBlock.releaseTime) (now : Int) : s'.due now = s.due now := by
  funext key
  have released := same key
  unfold due
  cases known : s.process? key <;> cases known' : s'.process? key <;> simp_all

/-- What is due stays due. -/
theorem due_of_le {key later : Int} (le : now ≤ later) (due : s.due now key) : s.due later key := by
  unfold Scheduler.due at due ⊢
  cases known : s.process? key with
  | none => simp [known] at due
  | some p =>
    rw [known, Option.any_some, decide_eq_true_eq] at due
    rw [Option.any_some, decide_eq_true_eq]
    omega

end

variable {s : Scheduler} {now : Int}

/-- The promotion of the rest of the pending queue, if of what comes before it nothing is due. Each
number that is due is removed where it stands, since it does not occur before. -/
theorem promoteEach_eq (kept keys : List Int) (pending : s.pending = kept ++ keys)
    (early : ∀ key ∈ kept, ¬s.due now key) (known : ∀ key ∈ keys, (s.process? key).isSome) :
    promoteEach now s keys = (.ok ((keys.filter (s.due now)).map s.pidOf), { s with
      processes := s.processes.readied (keys.filter (s.due now))
      pending := kept ++ keys.filter fun key => !s.due now key
      ready := s.ready ++ keys.filter (s.due now) }) := by
  induction keys generalizing s kept with
  | nil => simp [promoteEach, ProcessTable.readied_nil, ← pending]
  | cons key rest ih =>
    obtain ⟨p, hp⟩ := Option.isSome_iff_exists.1 (known key List.mem_cons_self)
    have known' : ∀ key ∈ rest, (s.process? key).isSome :=
      fun k hk => known k (List.mem_cons_of_mem key hk)
    have found : s.processes.process? key = some p := hp
    have number : s.pidOf key = p.pid := by simp [pidOf, ProcessTable.pidOf, found]
    have decided := due_eq hp now
    by_cases due : p.releaseTime ≤ now
    · rw [decide_eq_true due] at decided
      have absent : key ∉ kept := fun hk => early key hk decided
      have removed : (s.promoteOne key).pending = kept ++ rest := by
        show s.pending.erase key = kept ++ rest
        rw [pending, List.erase_append_right _ absent, List.erase_cons_head]
      have same : (s.promoteOne key).due now = s.due now :=
        due_congr (map_process?_amend s key · (f := fun p => { p with state := .ready }) fun _ => rfl) now
      have pids : (s.promoteOne key).pidOf = s.pidOf :=
        funext fun k => s.processes.pidOf_amend key k fun _ => rfl
      have rest_known : ∀ k ∈ rest, ((s.promoteOne key).process? k).isSome := by
        intro k hk
        have amended : (s.promoteOne key).process? k = _ := s.process?_amend key k _
        rw [amended]
        split <;> simp [known' k hk]
      have later := ih kept removed (by rwa [same]) rest_known
      rw [same, pids] at later
      simp only [promoteEach, found, if_pos due, later, List.filter_cons_of_pos decided]
      simp [promoteOne, amend, Queue.enqueue, ← ProcessTable.readied_singleton,
        ProcessTable.readied_readied, decided, number, Except.map]
    · rw [decide_eq_false due] at decided
      have longer : s.pending = kept ++ [key] ++ rest := by simp [pending]
      have early' : ∀ k ∈ kept ++ [key], ¬s.due now k := by
        intro k hk
        rcases List.mem_append.1 hk with before | here
        · exact early k before
        · rw [List.mem_singleton.1 here, decided]
          decide
      simp only [promoteEach, found, if_neg due, ih (kept ++ [key]) longer early' known']
      simp [decided]

/-- The scheduler after those that are due went from the pending queue to the ready queue. -/
def admitted (now : Int) (s : Scheduler) : Scheduler :=
  { s with
    processes := s.processes.readied (s.pending.filter (s.due now))
    pending := s.pending.filter fun key => !s.due now key
    ready := s.ready ++ s.pending.filter (s.due now) }

/-- A promotion moves those that are due, in their order, and nothing else. -/
theorem promote_eq (known : ∀ key ∈ s.pending, (s.process? key).isSome) :
    s.promote now = (.ok ((s.pending.filter (s.due now)).map s.pidOf), s.admitted now) :=
  promoteEach_eq [] s.pending rfl nofun known

theorem process?_admitted (s : Scheduler) (now key : Int) : (s.admitted now).process? key
    = (s.process? key).map fun p =>
      if key ∈ s.pending.filter (s.due now) then { p with state := .ready } else p :=
  s.processes.process?_readied (s.pending.filter (s.due now)) key

theorem due_admitted (s : Scheduler) (time now : Int) : (s.admitted time).due now = s.due now := by
  refine due_congr (fun key => ?_) now
  rw [process?_admitted, Option.map_map]
  congr 1
  funext p
  simp only [Function.comp_apply]
  split <;> rfl

/-- If nothing is due, nothing is admitted. -/
theorem admitted_of_early (early : s.pending.filter (s.due now) = []) : s.admitted now = s := by
  have all : ∀ key ∈ s.pending, !s.due now key := by
    intro key waits
    have not_due := List.filter_eq_nil_iff.1 early key waits
    simpa using not_due
  rw [admitted, early, List.filter_eq_self.2 all, ProcessTable.readied_nil, List.append_nil]

/-- Those that are due later are those that are due already and, of the others, those that are due
later. -/
theorem due_perm (s : Scheduler) {later : Int} (le : now ≤ later) :
    List.Perm (s.pending.filter (s.due now)
        ++ (s.pending.filter fun key => !s.due now key).filter (s.due later))
      (s.pending.filter (s.due later)) := by
  have both : ∀ key, (s.due now key && s.due later key) = s.due now key := by
    intro key
    cases due : s.due now key with
    | false => simp
    | true => simp [due_of_le le due]
  have parts := List.filter_append_perm (s.due now) (s.pending.filter (s.due later))
  simpa [List.filter_filter, both, Bool.and_comm] using parts

/-- If some are admitted now and some later, then the queues and the processes are as if all had been
admitted later, but for the order of the ready queue. -/
theorem admitted_admitted (s : Scheduler) {later : Int} (le : now ≤ later) :
    ((s.admitted now).admitted later).ready.Perm (s.admitted later).ready ∧
      (s.admitted now).admitted later
        = { s.admitted later with ready := ((s.admitted now).admitted later).ready } := by
  have parts := s.due_perm le
  have due := s.due_admitted now later
  constructor
  · have ready : ((s.admitted now).admitted later).ready
        = s.ready ++ s.pending.filter (s.due now)
          ++ (s.admitted now).pending.filter ((s.admitted now).due later) := rfl
    rw [ready, due, List.append_assoc]
    exact parts.append_left s.ready
  · have processes : ((s.admitted now).admitted later).processes = (s.admitted later).processes := by
      refine (s.processes.readied_readied _ _).trans ?_
      rw [due]
      exact s.processes.readied_congr fun key => parts.mem_iff
    have pending : ((s.admitted now).admitted later).pending = (s.admitted later).pending := by
      have rest : ∀ key, (!s.due later key && !s.due now key) = !s.due later key := by
        intro key
        cases early : s.due now key with
        | false => simp
        | true => simp [due_of_le le early]
      show (s.pending.filter _).filter _ = s.pending.filter _
      rw [List.filter_filter, due]
      exact List.filter_congr fun key _ => rest key
    exact congrArg₂ (fun processes pending => { s.admitted later with
      processes, pending, ready := ((s.admitted now).admitted later).ready }) processes pending

/-- A promotion is a stable partition of the pending queue. Those that are due become ready and go to
the tail of the ready queue, in their order, the others stay in theirs, and nothing else changes. A
second promotion at the same time promotes nobody. If there is one at a later time, then it leaves the
same as if it had been the only one, but for the order in the ready queue. -/
theorem promote_partitions (s : Scheduler) (known : ∀ key ∈ s.pending, (s.process? key).isSome)
    (now : Int) :
    s.promote now = (.ok ((s.pending.filter (s.due now)).map s.pidOf), { s with
      processes := s.processes.readied (s.pending.filter (s.due now))
      pending := s.pending.filter fun key => !s.due now key
      ready := s.ready ++ s.pending.filter (s.due now) }) ∧
    (s.promote now).2.promote now = (.ok [], (s.promote now).2) ∧
    ∀ later, now ≤ later → ∃ promoted s', (s.promote now).2.promote later = (.ok promoted, s') ∧
      s'.ready.Perm (s.promote later).2.ready ∧
      s' = { (s.promote later).2 with ready := s'.ready } := by
  have known' : ∀ key ∈ (s.admitted now).pending, ((s.admitted now).process? key).isSome := by
    intro key waits
    rw [process?_admitted, Option.isSome_map]
    exact known key (List.mem_of_mem_filter waits)
  have early : (s.admitted now).pending.filter ((s.admitted now).due now) = [] := by
    rw [due_admitted]
    exact List.filter_eq_nil_iff.2 fun key waits => by simpa using (List.mem_filter.1 waits).2
  refine ⟨promote_eq known, ?_, fun later le => ?_⟩
  · rw [promote_eq known, promote_eq known', early, admitted_of_early early]
    rfl
  · rw [promote_eq known, promote_eq known', promote_eq known]
    exact ⟨_, _, rfl, s.admitted_admitted le⟩

/-- The first process is pending twice, with one that is early in between and another that is ready
already. -/
theorem promote_partitions_repeated : ∃ s : Scheduler,
    s.pending = [1, 2, 3, 1] ∧ s.ready = [3] ∧ (∀ key ∈ s.pending, (s.process? key).isSome) ∧
    (s.promote 4).1.toOption = some [1, 3, 1] ∧ (s.promote 4).2.pending = [2] ∧
    (s.promote 4).2.ready = [3, 1, 3, 1] ∧
    ((s.promote 4).2.promote 9).2.ready = [3, 1, 3, 1, 2] ∧
    (s.promote 9).2.ready = [3, 1, 2, 3, 1] ∧
    ∃ promoted s', (s.promote 4).2.promote 9 = (.ok promoted, s') ∧
      s'.ready.Perm (s.promote 9).2.ready ∧ s' = { (s.promote 9).2 with ready := s'.ready } := by
  let s : Scheduler :=
    { processes := [.create 1 2 0 0 3, .create 2 2 7 4 7, .create 3 2 4 8 11]
      pending := [1, 2, 3, 1], ready := [3] }
  have known : ∀ key ∈ s.pending, (s.process? key).isSome := by decide
  exact ⟨s, rfl, rfl, known, by decide, by decide, by decide, by decide, by decide,
    (s.promote_partitions known 4).2.2 9 (by decide)⟩

end Scheduler

end RoundRobin
