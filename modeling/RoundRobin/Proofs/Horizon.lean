import RoundRobin.Proofs.Partition
import RoundRobin.Proofs.Position

/-!
# The horizon

A time that the clock never passes, whatever order the processes run in (`Machine.horizon`). It is
what the clock shows or the last release time, if that is later, and on top of it the effort that
the instructions ahead still take and one tick for each process that is not blocked, since each of
them may wait in vain once. A signal may wake a process that then has to wait again, so it counts
twice.

No work of the machine moves the horizon forward, and none takes time back or a process out of the
terminated queue (`Sound.advances`).
-/

namespace RoundRobin

namespace Instruction

/-- Whether an instruction signals a resource. -/
def isSignal : Instruction → Bool
  | semSignal _ => true
  | _ => false

/-- The ticks that some instructions may take, those of a process that is woken in vain included. -/
def effort (l : List Instruction) : Nat := l.length + l.countP isSignal

theorem effort_cons (i : Instruction) (l : List Instruction) :
    effort (i :: l) = effort l + if i.isSignal then 2 else 1 := by
  rw [effort, effort, List.length_cons, List.countP_cons]
  split <;> omega

theorem effort_le (l : List Instruction) : effort l ≤ 2 * l.length := by
  have := List.countP_le_length (p := isSignal) (l := l)
  rw [effort]
  omega

end Instruction

namespace Program

/-- The last release time of some programs, or zero if there are none. -/
def lastRelease (ps : List Program) : Int := (ps.map release).foldr max 0

theorem lastRelease_cons (P : Program) (ps : List Program) :
    lastRelease (P :: ps) = max P.release (lastRelease ps) := rfl

theorem release_le_lastRelease {ps : List Program} {P : Program} (hP : P ∈ ps) :
    P.release ≤ lastRelease ps := by
  induction ps with
  | nil => cases hP
  | cons Q ps ih =>
    rw [lastRelease_cons]
    rcases List.mem_cons.1 hP with rfl | rest
    · omega
    · have := ih rest
      omega

/-- The release times are each as far ahead as the last one, taken together. -/
theorem lastRelease_sub_le (ps : List Program) {now : Int} (started : 0 ≤ now) :
    (lastRelease ps - now).toNat ≤ (ps.map fun P => (P.release - now).toNat).sum := by
  induction ps with
  | nil =>
    have none : lastRelease [] = 0 := rfl
    rw [none]
    omega
  | cons Q ps ih =>
    rw [lastRelease_cons, List.map_cons, List.sum_cons]
    omega

end Program

/-- The effort of all instructions that are ahead of the processes. -/
def Scheduler.remaining (ps : List Program) (s : Scheduler) : Nat :=
  (s.positions.map fun x => Instruction.effort (Program.ahead ps x)).sum

/-- A time that the clock never passes. -/
def Machine.horizon (ps : List Program) (m : Machine) : Int :=
  max m.now (Program.lastRelease ps) + m.scheduler.remaining ps + ps.length
    - m.scheduler.blockedCount

/-! ### Lengths of queues -/

/-- Whether the processes at a station sleep, as a number. -/
def Station.asleep : Station → Nat
  | .blocked _ => 1
  | _ => 0

theorem Station.sum_asleep (st : Station) :
    (Resource.all.map fun r => if .blocked r = st then 1 else 0).sum = st.asleep := by
  cases st with
  | blocked r => cases r <;> rfl
  | _ => rfl

theorem Scheduler.blockedCount_eq {s s' : Scheduler}
    (same : ∀ r, s'.queue (.blocked r) = s.queue (.blocked r)) :
    s'.blockedCount = s.blockedCount := by
  have together : Resource.all.flatMap s'.blocked = Resource.all.flatMap s.blocked :=
    List.flatMap_congr fun r _ => same r
  rw [blockedCount, together, blockedCount]

namespace Transfer

variable {key : Int} {a b : Station} {s s' : Scheduler}

/-- The queue that a process leaves gets shorter, and that to which it comes gets longer. -/
theorem length_queue (t : Transfer key a b s s') (mem : key ∈ s.queue a) (ne : a ≠ b)
    (st : Station) : (s'.queue st).length + (if st = a then 1 else 0)
      = (s.queue st).length + if st = b then 1 else 0 := by
  rw [t.queue]
  by_cases hb : st = b
  · subst hb
    rw [if_pos rfl, if_pos rfl, if_neg (Ne.symm ne), List.length_append, List.length_singleton]
  · rw [if_neg hb, if_neg hb]
    by_cases ha : st = a
    · subst ha
      have length := List.length_erase_of_mem mem
      have positive := List.length_pos_of_mem mem
      rw [if_pos rfl, if_pos rfl]
      omega
    · rw [if_neg ha, if_neg ha]

theorem blockedCount (t : Transfer key a b s s') (mem : key ∈ s.queue a) (ne : a ≠ b) :
    s'.blockedCount + a.asleep = s.blockedCount + b.asleep := by
  have sums := congrArg List.sum (List.map_congr_left fun r (_ : r ∈ Resource.all) =>
    t.length_queue mem ne (.blocked r))
  rw [List.sum_map_add, List.sum_map_add, Station.sum_asleep, Station.sum_asleep] at sums
  rw [Scheduler.blockedCount, List.length_flatMap, Scheduler.blockedCount, List.length_flatMap]
  exact sums

theorem length_terminated_le (t : Transfer key a b s s') (ha : a ≠ .terminated) :
    (s.queue .terminated).length ≤ (s'.queue .terminated).length := by
  by_cases hb : b = .terminated
  · subst hb
    rw [t.queue, if_pos rfl, List.length_append]
    exact Nat.le_add_right _ _
  · have kept := t.queue_of_ne (Ne.symm ha) (Ne.symm hb)
    exact Nat.le_of_eq (congrArg List.length kept.symm)

end Transfer

/-! ### Work and the horizon -/

/-- Time went on or stood still, no process came back from its end, and the horizon is no later. -/
structure Advances (ps : List Program) (m m' : Machine) : Prop where
  now : m.now ≤ m'.now
  terminated : m.terminatedCount ≤ m'.terminatedCount
  horizon : m'.horizon ps ≤ m.horizon ps

namespace Advances

variable {ps : List Program} {m m₁ m' : Machine}

theorem refl (ps : List Program) (m : Machine) : Advances ps m m :=
  ⟨Int.le_refl _, Nat.le_refl _, Int.le_refl _⟩

theorem trans (h : Advances ps m m₁) (h' : Advances ps m₁ m') : Advances ps m m' :=
  ⟨Int.le_trans h.now h'.now, Nat.le_trans h.terminated h'.terminated,
    Int.le_trans h'.horizon h.horizon⟩

/-- If no process goes on to another instruction, a process is blocked for each tick. -/
theorem of_alike (alike : Alike m.scheduler m'.scheduler) (now : m.now ≤ m'.now)
    (blocked : m'.now + m.scheduler.blockedCount ≤ m.now + m'.scheduler.blockedCount)
    (terminated : m.terminatedCount ≤ m'.terminatedCount) : Advances ps m m' := by
  refine ⟨now, terminated, ?_⟩
  rw [Machine.horizon, Machine.horizon, Scheduler.remaining, alike.positions, ← Scheduler.remaining]
  omega

/-- A move between queues that takes no time leaves the horizon where it is, if nobody is blocked
or woken by it. -/
theorem of_still (alike : Alike m.scheduler m'.scheduler) (now : m'.now = m.now)
    (blocked : m'.scheduler.blockedCount = m.scheduler.blockedCount)
    (terminated : m.terminatedCount ≤ m'.terminatedCount) : Advances ps m m' :=
  of_alike alike (Int.le_of_eq now.symm) (Int.le_of_eq (by rw [now, blocked])) terminated

end Advances

/-- A signal wakes at most one process, and no other instruction wakes any. -/
theorem Effect.blockedCount_le {memory memory' : Memory} {s s' : Scheduler} {key : Int}
    {p : ControlBlock} {i : Instruction} (effect : Effect memory s key p i memory' s') :
    s.blockedCount ≤ s'.blockedCount + if i.isSignal then 1 else 0 := by
  cases effect with
  | acquire | release =>
    rw [Scheduler.blockedCount_eq fun r => Scheduler.queue_withPermits _ _ _ _]
    exact Nat.le_add_right _ _
  | bind =>
    rw [Scheduler.blockedCount_eq fun r => Scheduler.queue_amend _ _ _ _]
    exact Nat.le_add_right _ _
  | @wake r woken rest _ front moved =>
    have waits : woken ∈ (s.withPermits r 1).queue (.blocked r) := by
      rw [Scheduler.queue_withPermits, front]
      exact List.mem_cons_self
    have fewer := moved.blockedCount waits (by simp)
    rw [Scheduler.blockedCount_eq fun _ => Scheduler.queue_withPermits s r 1 _] at fewer
    exact Nat.le_of_eq fewer.symm
  | store | nothing => exact Nat.le_add_right _ _

theorem Effect.length_terminated_le {memory memory' : Memory} {s s' : Scheduler} {key : Int}
    {p : ControlBlock} {i : Instruction} (effect : Effect memory s key p i memory' s') :
    (s.queue .terminated).length ≤ (s'.queue .terminated).length := by
  cases effect with
  | acquire | release =>
    exact Nat.le_of_eq (congrArg List.length (Scheduler.queue_withPermits _ _ _ _).symm)
  | bind => exact Nat.le_of_eq (congrArg List.length (Scheduler.queue_amend _ _ _ _).symm)
  | wake front moved =>
    have := moved.length_terminated_le (by simp)
    rwa [Scheduler.queue_withPermits] at this
  | store | nothing => exact Nat.le_refl _

namespace Sound

variable {ps : List Program} {m m' : Machine} {key : Int} {p : ControlBlock} {i : Instruction}

/-- A completed instruction is no longer ahead. -/
theorem remaining_of_completion (h : Sound ps m) (c : Completion key p i m m') :
    m.scheduler.remaining ps
      = m'.scheduler.remaining ps + if i.isSignal then 2 else 1 := by
  obtain ⟨l, l', k, before, after, next⟩ := h.positions_of_completion c
  have effort : Instruction.effort (Program.ahead ps (key, k))
      = Instruction.effort (Program.ahead ps (key, k + 1)) + if i.isSignal then 2 else 1 := by
    rw [Program.ahead_eq_cons next, Instruction.effort_cons]
  rw [Scheduler.remaining, before, Scheduler.remaining, after, List.map_append, List.map_append,
    List.map_cons, List.map_cons, List.sum_append, List.sum_append, List.sum_cons, List.sum_cons,
    effort]
  omega

theorem advances_of_completion (h : Sound ps m) (c : Completion key p i m m') :
    Advances ps m m' := by
  obtain ⟨memory, s, effect, -, queue, -⟩ := c.effect
  have now := c.now
  have remaining := h.remaining_of_completion c
  have blocked := effect.blockedCount_le
  have terminated := effect.length_terminated_le
  rw [← Scheduler.blockedCount_eq fun r => queue (.blocked r)] at blocked
  rw [← queue] at terminated
  refine ⟨by omega, terminated, ?_⟩
  rw [Machine.horizon, Machine.horizon, now]
  -- of the two that a signal counts for, one is for the process that it wakes
  by_cases signal : i.isSignal
  · rw [if_pos signal] at remaining blocked
    omega
  · rw [if_neg signal] at remaining blocked
    omega

theorem mem_running (h : Sound ps m) (known : m.scheduler.process? key = some p)
    (runs : p.state = .running) : key ∈ m.scheduler.queue .running :=
  h.orderly.mem_queue_of_station known (h.orderly.station?_of_running known runs)

theorem advances_of_blocking (h : Sound ps m) {r : Resource} (b : Blocking key p r m m') :
    Advances ps m m' := by
  obtain @⟨s, facing, used_up, moved⟩ := b
  have blocked := moved.blockedCount (h.mem_running facing.known facing.runs) (by simp)
  have terminated := moved.length_terminated_le (by simp)
  have alike : Alike m.scheduler (s.amend key ControlBlock.counted) :=
    (Alike.of_transfer moved).trans (.of_amend _ _ fun _ => rfl)
  have more : (s.amend key ControlBlock.counted).blockedCount = m.scheduler.blockedCount + 1 :=
    blocked
  refine .of_alike alike (Int.le_add_one (Int.le_refl m.now)) ?_ terminated
  show m.now + 1 + (m.scheduler.blockedCount : Int)
    ≤ m.now + (s.amend key ControlBlock.counted).blockedCount
  omega

theorem advances_of_departure (h : Sound ps m) {start : Int} (d : Departure key start m m') :
    Advances ps m m' := by
  have alike := d.alike
  cases d with
  | yield => exact .of_still alike rfl rfl (Nat.le_refl _)
  | preempt facing moved =>
    have blocked := moved.blockedCount (h.mem_running facing.known facing.runs) (by decide)
    exact .of_still alike rfl blocked (moved.length_terminated_le (by decide))
  | terminate current known runs at_end moved recorded =>
    have mem := h.mem_running known runs
    rw [← Scheduler.queue_amend m.scheduler key (ControlBlock.ended m.now)] at mem
    have blocked := moved.blockedCount mem (by decide)
    exact .of_still alike rfl blocked (moved.length_terminated_le (by decide))

/-- Work advances the machine. -/
theorem advances_of_work (h : Sound ps m) (work : Work m m') : Advances ps m m' := by
  cases work with
  | outside same =>
    have scheduler := Machine.scheduler_of_inside same
    have terminated : m'.terminatedCount = m.terminatedCount := by
      rw [Machine.terminatedCount, scheduler, Machine.terminatedCount]
    refine .of_still ?_ (Machine.now_of_inside same) (by rw [scheduler])
      (Nat.le_of_eq terminated.symm)
    rw [scheduler]
    exact .refl _
  | promote known stands due moved =>
    have blocked := moved.blockedCount (h.orderly.mem_queue_of_station known stands) (by decide)
    exact .of_still (.of_transfer moved) rfl blocked (moved.length_terminated_le (by decide))
  | dispatch dispatch =>
    obtain ⟨idle, front, known, moved⟩ := dispatch
    have waits : _ ∈ m.scheduler.queue .ready := front ▸ List.mem_cons_self
    have blocked := moved.blockedCount waits (by decide)
    exact .of_still ((Alike.of_transfer moved).trans (.of_amend _ _ fun _ => rfl)) rfl blocked
      (moved.length_terminated_le (by decide))
  | complete completion => exact h.advances_of_completion completion
  | block blocking => exact h.advances_of_blocking blocking
  | depart departure => exact h.advances_of_departure departure

theorem advances (h : Sound ps m) (works : Works m m') : Advances ps m m' := by
  induction works with
  | refl => exact .refl ps m
  | tail works work ih => exact ih.trans ((h.works works).advances_of_work work)

end Sound

end RoundRobin
