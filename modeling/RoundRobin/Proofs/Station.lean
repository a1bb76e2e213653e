import Mathlib.Data.List.Nodup
import RoundRobin.Scheduler

/-!
# Stations

The seven queues as one family: a `Station` names a queue, and the state of a process together with
what it waits for names the station at which it stands. `Scheduler.Orderly` says that the queues and
the processes tell the same story, by one equation: a number occurs in the queue of a station as
often as the process under it stands there, that is, once or never.

A move of a process is a `Transfer` from one station to the tail of another. Every transfer keeps
the order (`Orderly.transfer`), so it is enough to see that each move of the scheduler is one.
-/

namespace RoundRobin

/-- The place of one of the seven queues. -/
inductive Station where
  | running
  | ready
  | pending
  | blocked (r : Resource)
  | terminated
  deriving DecidableEq, Repr

namespace Station

/-- The state of the processes at a station. -/
def state : Station → ProcessState
  | running => .running
  | ready => .ready
  | pending => .pending
  | blocked _ => .blocked
  | terminated => .terminated

/-- What the processes at a station wait for. -/
def waiting : Station → Waiting
  | blocked r => .resource r
  | _ => .nothing

/-- The stations in the order in which their queues are shown. -/
def all : List Station :=
  [running, ready, pending] ++ Resource.all.map blocked ++ [terminated]

end Station

namespace ControlBlock

/-- The station that the state of a process and what it waits for name. -/
def station? (p : ControlBlock) : Option Station :=
  match p.state, p.blockedOn with
  | .running, .nothing => some .running
  | .ready, .nothing => some .ready
  | .pending, .nothing => some .pending
  | .blocked, .resource r => some (.blocked r)
  | .terminated, .nothing => some .terminated
  | _, _ => none

/-- A process that has come to a station. -/
def enter (st : Station) (p : ControlBlock) : ControlBlock :=
  { p with state := st.state, blockedOn := st.waiting }

theorem station?_eq_some_iff (p : ControlBlock) (st : Station) :
    p.station? = some st ↔ p.state = st.state ∧ p.blockedOn = st.waiting := by
  unfold station?
  constructor
  · intro h
    split at h <;> cases h <;> simp_all [Station.state, Station.waiting]
  · rintro ⟨hs, hw⟩
    rw [hs, hw]
    cases st <;> rfl

theorem state_of_station? {p : ControlBlock} {st : Station} (stands : p.station? = some st) :
    p.state = st.state :=
  ((station?_eq_some_iff p st).1 stands).1

@[simp]
theorem station?_enter (st : Station) (p : ControlBlock) : (p.enter st).station? = some st :=
  (station?_eq_some_iff _ _).2 ⟨rfl, rfl⟩

/-- What a process is apart from the station at which it stands. -/
def body (p : ControlBlock) : ControlBlock := { p with state := .pending, blockedOn := .nothing }

section

variable {p p' : ControlBlock} (same : p'.body = p.body)

include same

theorem executed_of_body : p'.executed = p.executed := (congrArg executed same :)

theorem releaseTime_of_body : p'.releaseTime = p.releaseTime := (congrArg releaseTime same :)

theorem startTime_of_body : p'.startTime = p.startTime := (congrArg startTime same :)

theorem endTime_of_body : p'.endTime = p.endTime := (congrArg endTime same :)

end

/-- A change of state alone makes a process enter a station at which nothing is waited for, if it
waited for nothing before. -/
theorem enter_eq {p : ControlBlock} {a b : Station} (stands : p.station? = some a)
    (free : a.waiting = .nothing) (free' : b.waiting = .nothing) :
    ({ p with state := b.state } : ControlBlock) = p.enter b := by
  have nothing := ((station?_eq_some_iff p a).1 stands).2
  rw [free] at nothing
  simp only [enter, free', ← nothing]

end ControlBlock

namespace Scheduler

/-- The queue of a station. -/
def queue (s : Scheduler) : Station → Queue
  | .running => s.running
  | .ready => s.ready
  | .pending => s.pending
  | .blocked r => s.blocked r
  | .terminated => s.terminated

theorem map_queues (s : Scheduler) : s.queues.map Prod.snd = Station.all.map s.queue := rfl

/-- The process under a key, if the key is in use. -/
def process? (s : Scheduler) (key : Int) : Option ControlBlock := s.processes.process? key

/-- The station at which the process under a key stands. -/
def stationOf (s : Scheduler) (key : Int) : Option Station :=
  (s.process? key).bind ControlBlock.station?

/-- The permits that are left for a resource. -/
def permits (s : Scheduler) (r : Resource) : Int := (s.semaphores.get r).count

/-- The scheduler with another number of permits for a resource. -/
def withPermits (s : Scheduler) (r : Resource) (n : Int) : Scheduler :=
  { s with semaphores := s.semaphores.set r { s.semaphores.get r with count := n } }

/-! ### What a change of one process or of the permits shows -/

@[simp]
theorem process?_amend (s : Scheduler) (key k : Int) (f : ControlBlock → ControlBlock) :
    (s.amend key f).process? k = if k = key then (s.process? k).map f else s.process? k :=
  ProcessTable.process?_amend _ _ _ _

theorem process?_amend_self {s : Scheduler} {key : Int} {p : ControlBlock}
    (hp : s.process? key = some p) (f : ControlBlock → ControlBlock) :
    (s.amend key f).process? key = some (f p) := by
  rw [process?_amend, if_pos rfl, hp]
  rfl

theorem process?_amend_of_ne (s : Scheduler) {key k : Int} (ne : k ≠ key)
    (f : ControlBlock → ControlBlock) : (s.amend key f).process? k = s.process? k := by
  rw [process?_amend, if_neg ne]

/-- If one process was changed, each is what the change makes of it or what it was. -/
theorem process?_cases_of_eq {s s' : Scheduler} {key k : Int} {f : ControlBlock → ControlBlock}
    {q : ControlBlock}
    (changed : s'.process? k = if k = key then (s.process? k).map f else s.process? k)
    (hq : s'.process? k = some q) :
    ∃ p, s.process? k = some p ∧ (k = key ∧ q = f p ∨ k ≠ key ∧ q = p) := by
  rw [changed] at hq
  split at hq
  · rename_i same
    obtain ⟨p, hp, rfl⟩ := Option.map_eq_some_iff.1 hq
    exact ⟨p, hp, .inl ⟨same, rfl⟩⟩
  · rename_i other
    exact ⟨q, hq, .inr ⟨other, rfl⟩⟩

/-- A process that was changed is what the change makes of it. -/
theorem process?_amend_cases {s : Scheduler} {key k : Int} {f : ControlBlock → ControlBlock}
    {q : ControlBlock} (hq : (s.amend key f).process? k = some q) :
    ∃ p, s.process? k = some p ∧ (k = key ∧ q = f p ∨ k ≠ key ∧ q = p) :=
  process?_cases_of_eq (process?_amend s key k f) hq

@[simp]
theorem queue_amend (s : Scheduler) (key : Int) (f : ControlBlock → ControlBlock) (st : Station) :
    (s.amend key f).queue st = s.queue st := by
  cases st <;> rfl

@[simp]
theorem permits_amend (s : Scheduler) (key : Int) (f : ControlBlock → ControlBlock)
    (r : Resource) : (s.amend key f).permits r = s.permits r := rfl

@[simp]
theorem length_amend (s : Scheduler) (key : Int) (f : ControlBlock → ControlBlock) :
    (s.amend key f).processes.length = s.processes.length :=
  ProcessTable.length_amend _ _ _

@[simp]
theorem process?_withPermits (s : Scheduler) (r : Resource) (n key : Int) :
    (s.withPermits r n).process? key = s.process? key := rfl

@[simp]
theorem queue_withPermits (s : Scheduler) (r : Resource) (n : Int) (st : Station) :
    (s.withPermits r n).queue st = s.queue st := by
  cases st with
  | blocked other =>
    simp only [queue, blocked, withPermits, Semaphores.get_set]
    split <;> simp_all
  | _ => rfl

@[simp]
theorem permits_withPermits (s : Scheduler) (r other : Resource) (n : Int) :
    (s.withPermits r n).permits other = if other = r then n else s.permits other := by
  simp only [permits, withPermits, Semaphores.get_set]
  split <;> rfl

@[simp]
theorem length_withPermits (s : Scheduler) (r : Resource) (n : Int) :
    (s.withPermits r n).processes.length = s.processes.length := rfl

/-! ### The processes in a row -/

theorem process?_isSome_iff (s : Scheduler) (key : Int) :
    (s.process? key).isSome ↔ 0 < key ∧ key ≤ s.processes.length := by
  unfold process? ProcessTable.process?
  by_cases positive : 0 < key
  · rw [if_pos positive, isSome_getElem?]
    omega
  · rw [if_neg positive]
    simp only [Option.isSome_none, Bool.false_eq_true, false_iff]
    omega

theorem bounds_of_process? {s : Scheduler} {key : Int} {p : ControlBlock}
    (hp : s.process? key = some p) : 0 < key ∧ key ≤ s.processes.length :=
  (process?_isSome_iff s key).1 (by rw [hp]; rfl)

theorem process?_succ (s : Scheduler) (i : Nat) : s.process? (i + 1) = s.processes[i]? := by
  unfold process? ProcessTable.process?
  rw [if_pos (by omega), show ((i : Int) + 1 - 1).toNat = i by omega]

theorem process?_of_mem {s : Scheduler} {p : ControlBlock} (hp : p ∈ s.processes) :
    ∃ key, s.process? key = some p := by
  obtain ⟨i, hi⟩ := List.mem_iff_getElem?.1 hp
  exact ⟨i + 1, (s.process?_succ i).trans hi⟩

section

variable {γ : Type} {g : ControlBlock → γ} {s s' : Scheduler} {key : Int} {p : ControlBlock}

/-- What is read off each process is the same of all in a row if it is under each key. -/
theorem map_processes_eq (length : s'.processes.length = s.processes.length)
    (same : ∀ k p', s'.process? k = some p' → ∃ p, s.process? k = some p ∧ g p' = g p) :
    s'.processes.map g = s.processes.map g := by
  apply List.ext_getElem?
  intro i
  rw [List.getElem?_map, List.getElem?_map]
  by_cases inside : i < s'.processes.length
  · obtain ⟨p', hp'⟩ : ∃ p', s'.processes[i]? = some p' := ⟨_, List.getElem?_eq_getElem inside⟩
    obtain ⟨p, hp, eq⟩ := same (i + 1) p' ((s'.process?_succ i).trans hp')
    rw [process?_succ] at hp
    rw [hp', hp]
    exact congrArg some eq
  · rw [List.getElem?_eq_none (by omega), List.getElem?_eq_none (by omega)]

theorem map_process?_of_map (same : s'.processes.map g = s.processes.map g) (key : Int) :
    (s'.process? key).map g = (s.process? key).map g := by
  have read : ∀ s : Scheduler, (s.process? key).map g
      = if 0 < key then (s.processes.map g)[(key - 1).toNat]? else none := by
    intro s
    unfold process? ProcessTable.process?
    rw [List.getElem?_map]
    split <;> rfl
  rw [read, read, same]

theorem process?_of_map (same : s'.processes.map g = s.processes.map g) {p' : ControlBlock}
    (known : s'.process? key = some p') : ∃ p, s.process? key = some p ∧ g p' = g p := by
  have both := map_process?_of_map same key
  rw [known] at both
  obtain ⟨p, hp, eq⟩ := Option.map_eq_some_iff.1 both.symm
  exact ⟨p, hp, eq.symm⟩

/-- A change of one process does not show in what is read off it if that stays the same. -/
theorem map_amend (s : Scheduler) (key : Int) {f : ControlBlock → ControlBlock}
    (same : ∀ p, g (f p) = g p) : (s.amend key f).processes.map g = s.processes.map g := by
  apply map_processes_eq (length_amend _ _ _)
  intro k p' hp'
  obtain ⟨p, hp, ⟨-, rfl⟩ | ⟨-, rfl⟩⟩ := process?_amend_cases hp'
  · exact ⟨p, hp, same p⟩
  · exact ⟨p', hp, rfl⟩

/-- A change of one process shows at its place in the row. -/
theorem map_amend_split (g : ControlBlock → γ) (hp : s.process? key = some p)
    (f : ControlBlock → ControlBlock) : ∃ l l', s.processes.map g = l ++ g p :: l' ∧
      (s.amend key f).processes.map g = l ++ g (f p) :: l' := by
  obtain ⟨positive, high⟩ := bounds_of_process? hp
  obtain ⟨l, q, l', before, length, after⟩ :=
    List.exists_of_modify f (show (key - 1).toNat < s.processes.length by omega)
  have same : q = p := by
    have at_key := s.process?_succ (key - 1).toNat
    rw [show (((key - 1).toNat : Nat) : Int) + 1 = key by omega, hp, before, ← length,
      List.getElem?_append_right (Nat.le_refl _), Nat.sub_self] at at_key
    exact (Option.some.inj at_key).symm
  subst same
  refine ⟨l.map g, l'.map g, ?_, ?_⟩
  · rw [before, List.map_append, List.map_cons]
  · rw [amend, ProcessTable.amend, if_pos positive, after, List.map_append, List.map_cons]

/-- What one process becomes shows at its place in the row if it shows of no other. -/
theorem map_processes_split (length : s'.processes.length = s.processes.length)
    (hp : s.process? key = some p) {p' : ControlBlock} (hp' : s'.process? key = some p')
    (others : ∀ k, k ≠ key → (s'.process? k).map g = (s.process? k).map g) :
    ∃ l l', s.processes.map g = l ++ g p :: l' ∧ s'.processes.map g = l ++ g p' :: l' := by
  obtain ⟨l, l', before, after⟩ := map_amend_split g hp fun _ => p'
  refine ⟨l, l', before, Eq.trans ?_ after⟩
  refine map_processes_eq (length.trans (length_amend _ _ _).symm) fun k q hq => ?_
  by_cases same : k = key
  · subst same
    cases hp'.symm.trans hq
    exact ⟨p', process?_amend_self hp _, rfl⟩
  · have other := others k same
    rw [hq] at other
    obtain ⟨q₀, hq₀, eq⟩ := Option.map_eq_some_iff.1 other.symm
    exact ⟨q₀, (s.process?_amend_of_ne same _).trans hq₀, eq.symm⟩

/-- A change that leaves a process as it is changes nothing. -/
theorem amend_of_fixed (known : s.process? key = some p) {f : ControlBlock → ControlBlock}
    (fixed : f p = p) : s.amend key f = s := by
  have same : s.processes.amend key f = s.processes := by
    apply List.ext_getElem?
    intro i
    have shown := s.process?_amend key (i + 1) f
    rw [process?_succ, process?_succ] at shown
    refine shown.trans ?_
    by_cases here : (i : Int) + 1 = key
    · subst here
      rw [process?_succ] at known
      rw [if_pos rfl, known, Option.map_some, fixed]
    · rw [if_neg here]
  unfold amend
  rw [same]

/-- The process under a key apart from the station at which it stands. -/
def body? (s : Scheduler) (key : Int) : Option ControlBlock :=
  (s.process? key).map ControlBlock.body

theorem process?_of_body? (same : s'.body? key = s.body? key) {p' : ControlBlock}
    (known : s'.process? key = some p') :
    ∃ p, s.process? key = some p ∧ p'.body = p.body := by
  rw [body?, known, body?] at same
  obtain ⟨p, hp, eq⟩ := Option.map_eq_some_iff.1 same.symm
  exact ⟨p, hp, eq.symm⟩

/-- What is read off the process under a key apart from its station. -/
theorem map_process?_of_body? (look : ∀ p, g p.body = g p) (same : s'.body? key = s.body? key) :
    (s'.process? key).map g = (s.process? key).map g := by
  have read : ∀ s : Scheduler, (s.process? key).map g = (s.body? key).map g := by
    intro s
    rw [body?, Option.map_map]
    exact congrArg (Option.map · _) (funext fun p => (look p).symm)
  rw [read, read, same]

theorem map_process?_amend (s : Scheduler) (key k : Int) {f : ControlBlock → ControlBlock}
    (same : ∀ p, g (f p) = g p) : ((s.amend key f).process? k).map g = (s.process? k).map g :=
  map_process?_of_map (map_amend s key same) k

theorem body?_amend_of_ne (s : Scheduler) {k : Int} (ne : k ≠ key)
    (f : ControlBlock → ControlBlock) : (s.amend key f).body? k = s.body? k :=
  congrArg (Option.map ControlBlock.body) (s.process?_amend_of_ne ne f)

/-- A promotion does not show in what is read off the processes if it does not look at states. -/
theorem map_promoteEach (same : ∀ p, g { p with state := .ready } = g p) (now : Int)
    (keys : List Int) (s : Scheduler) :
    (promoteEach now s keys).2.processes.map g = s.processes.map g := by
  induction keys generalizing s with
  | nil => rfl
  | cons key rest ih =>
    unfold promoteEach
    split
    · rfl
    · split
      · exact (ih _).trans (map_amend _ key same)
      · exact ih s

end

/-! ### Order -/

/-- The queues hold the numbers of the processes that stand at their stations, each once, and no
other numbers; and every process stands at a station and goes by its key. -/
structure Orderly (s : Scheduler) : Prop where
  pid : ∀ key p, s.process? key = some p → p.pid = key
  station : ∀ key p, s.process? key = some p → ∃ st, p.station? = some st
  count : ∀ key st, (s.queue st).count key = if s.stationOf key = some st then 1 else 0

namespace Orderly

variable {s s' : Scheduler} {key : Int} {p : ControlBlock}

theorem mem_queue_iff (h : s.Orderly) (key : Int) (st : Station) :
    key ∈ s.queue st ↔ s.stationOf key = some st := by
  rw [← List.count_pos_iff, h.count]
  split <;> simp_all

theorem process?_of_mem (h : s.Orderly) {st : Station} (hk : key ∈ s.queue st) :
    ∃ p, s.process? key = some p ∧ p.station? = some st :=
  Option.bind_eq_some_iff.1 ((h.mem_queue_iff key st).1 hk)

theorem isSome_of_mem_pending (h : s.Orderly) : ∀ key ∈ s.pending, (s.process? key).isSome := by
  intro key waits
  have waits' : key ∈ s.queue .pending := waits
  obtain ⟨p, known, -⟩ := h.process?_of_mem waits'
  rw [known]
  rfl

theorem nodup_queue (h : s.Orderly) (st : Station) : (s.queue st).Nodup := by
  rw [List.nodup_iff_count_le_one]
  intro key
  rw [h.count]
  split <;> omega

theorem pidOf (h : s.Orderly) (hp : s.process? key = some p) : s.pidOf key = key := by
  have pid := h.pid key p hp
  simp only [process?] at hp
  simp only [Scheduler.pidOf, ProcessTable.pidOf, hp, pid]

theorem mem_queue_of_station (h : s.Orderly) (hp : s.process? key = some p) {st : Station}
    (stands : p.station? = some st) : key ∈ s.queue st :=
  (h.mem_queue_iff key st).2 (by simp [stationOf, hp, stands])

/-- A process stands at one station only. -/
theorem not_mem_queue (h : s.Orderly) (hp : s.process? key = some p) {a b : Station}
    (stands : p.station? = some a) (ne : a ≠ b) : key ∉ s.queue b := by
  rw [h.mem_queue_iff, stationOf, hp]
  show ¬p.station? = some b
  rw [stands]
  exact fun same => ne (Option.some.inj same)

theorem state_of_mem (h : s.Orderly) {st : Station} (hk : key ∈ s.queue st)
    (hp : s.process? key = some p) : p.state = st.state := by
  obtain ⟨q, hq, stands⟩ := h.process?_of_mem hk
  cases hp.symm.trans hq
  exact ControlBlock.state_of_station? stands

/-- A running process stands at the processor. -/
theorem station?_of_running (h : s.Orderly) (hp : s.process? key = some p)
    (runs : p.state = .running) : p.station? = some .running := by
  obtain ⟨st, stands⟩ := h.station key p hp
  have state := (ControlBlock.state_of_station? stands).symm.trans runs
  cases st <;> first | exact stands | cases state

/-- Order does not look at what is no number and no station. -/
theorem amend (h : s.Orderly) {f : ControlBlock → ControlBlock}
    (pid : ∀ p, (f p).pid = p.pid) (stands : ∀ p, (f p).station? = p.station?) :
    (s.amend key f).Orderly := by
  have stationOf_amend : ∀ k, (s.amend key f).stationOf k = s.stationOf k := by
    intro k
    simp only [stationOf, process?_amend]
    split
    · cases s.process? k <;> simp [stands]
    · rfl
  refine ⟨?_, ?_, ?_⟩
  · intro k q hq
    obtain ⟨p, hp, ⟨-, rfl⟩ | ⟨-, rfl⟩⟩ := process?_amend_cases hq
    · exact (pid p).trans (h.pid k p hp)
    · exact h.pid k q hp
  · intro k q hq
    obtain ⟨p, hp, ⟨-, rfl⟩ | ⟨-, rfl⟩⟩ := process?_amend_cases hq
    · rw [stands]
      exact h.station k p hp
    · exact h.station k q hp
  · intro k st
    rw [queue_amend, stationOf_amend, h.count]

theorem withPermits (h : s.Orderly) (r : Resource) (n : Int) : (s.withPermits r n).Orderly :=
  ⟨h.pid, h.station, fun key st => (congrArg _ (queue_withPermits s r n st)).trans (h.count key st)⟩

end Orderly

end Scheduler

end RoundRobin
