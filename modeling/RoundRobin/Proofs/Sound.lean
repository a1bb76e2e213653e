import RoundRobin.Machine
import RoundRobin.Proofs.Decode
import RoundRobin.Proofs.Layout
import RoundRobin.Proofs.Transfer

/-!
# Sound machines

What is true of the machine at every moment between two instructions, whatever was asked of it: the
programs that were loaded are still in memory and every process is somewhere in its own
(`Layout`), the queues and the processes tell the same story (`Scheduler.Orderly`), and the
process that has the processor is known, has started, and is alone in the running queue unless it
was just blocked (`Processor`). Together this is `Sound`.
-/

namespace RoundRobin

namespace Machine

/-- The pause after an instruction comes to its end, or none is asked for. -/
def Rests (m : Machine) : Prop := m.sleep.Accepts m.delay

instance (m : Machine) : Decidable m.Rests := inferInstanceAs (Decidable (m.sleep.Accepts m.delay))

/-- The machine without the files, the input and the log. -/
def inside (m : Machine) : Machine := { m with storage := {}, inputs := [], log := #[] }

section

variable {m m' : Machine} (same : m'.inside = m.inside)

include same

theorem quantum_of_inside : m'.quantum = m.quantum := (congrArg quantum same :)

theorem memory_of_inside : m'.memory = m.memory := (congrArg memory same :)

theorem scheduler_of_inside : m'.scheduler = m.scheduler := (congrArg scheduler same :)

theorem clock_of_inside : m'.clock = m.clock := (congrArg clock same :)

theorem current_of_inside : m'.current = m.current := (congrArg current same :)

theorem metrics_of_inside : m'.metrics = m.metrics := (congrArg metrics same :)

theorem nextAddress_of_inside : m'.nextAddress = m.nextAddress := (congrArg nextAddress same :)

theorem delay_of_inside : m'.delay = m.delay := (congrArg delay same :)

theorem sleep_of_inside : m'.sleep = m.sleep := (congrArg sleep same :)

theorem rests_of_inside : m'.Rests ↔ m.Rests := by
  rw [Rests, sleep_of_inside same, delay_of_inside same]
  rfl

end

end Machine

/-- A process is that of a program, and is somewhere in it. -/
structure Placed (ps : List Program) (m : Machine) (key : Int) (P : Program) (p : ControlBlock) :
    Prop where
  release : p.releaseTime = P.release
  quantum : p.quantum = m.quantum
  lower : p.lowerBound = Program.start ps key
  holds : Holds m.memory P p

/-- The programs lie in memory in a row, each with its process, and nothing was written behind
them. -/
structure Layout (ps : List Program) (m : Machine) : Prop where
  quantum_pos : 0 < m.quantum
  length : m.scheduler.processes.length = ps.length
  placed : ∀ key P p, Program.under ps key = some P → m.scheduler.process? key = some p →
    Placed ps m key P p
  next : m.nextAddress = Program.extents ps
  fits : (Program.extents ps : Int) ≤ m.memory.size
  unused : ∀ a : Int, Program.extents ps ≤ a → a < m.memory.size → m.memory.slot? a = some {}

/-- The process that has the processor has started and is running or was just blocked. No other
process is in the running queue. -/
structure Processor (m : Machine) : Prop where
  running : ∀ key, key ∈ m.scheduler.queue .running → m.current = some key
  current : ∀ key, m.current = some key → ∃ p, m.scheduler.process? key = some p ∧
    p.startTime.isSome ∧ (p.state = .running ∨ p.state = .blocked)

/-- What is true of a machine with the given programs between two instructions. -/
structure Sound (ps : List Program) (m : Machine) : Prop where
  layout : Layout ps m
  orderly : m.scheduler.Orderly
  processor : Processor m

/-- The process on the processor, if there is one, is running. This is so between two turns, and
within a turn until its process is blocked. -/
def Settled (m : Machine) : Prop :=
  ∀ key, m.current = some key → ∃ p, m.scheduler.process? key = some p ∧ p.state = .running

namespace Layout

variable {ps : List Program} {m m' : Machine} {key : Int} {p : ControlBlock} {P : Program}

theorem turn_pos (h : Layout ps m) : 0 < m.quantum.toNat := by
  have positive := h.quantum_pos
  omega

theorem lookup (h : Layout ps m) (hp : m.scheduler.process? key = some p) :
    ∃ P, Program.under ps key = some P ∧ Placed ps m key P p := by
  obtain ⟨positive, high⟩ := Scheduler.bounds_of_process? hp
  rw [h.length] at high
  have inside : (key - 1).toNat < ps.length := by omega
  have hP := Program.under_eq_some_iff.2 ⟨positive, List.getElem?_eq_getElem inside⟩
  exact ⟨_, hP, h.placed key _ p hP hp⟩

theorem process?_of_under (h : Layout ps m) (hP : Program.under ps key = some P) :
    ∃ p, m.scheduler.process? key = some p := by
  obtain ⟨positive, at_key⟩ := Program.under_eq_some_iff.1 hP
  have inside := (List.getElem?_eq_some_iff.1 at_key).1
  have length := h.length
  exact Option.isSome_iff_exists.1 ((Scheduler.process?_isSome_iff _ key).2 (by omega))

/-- The layout does not look at the queues, the times and the counts. -/
theorem of_place (h : Layout ps m) (quantum : m'.quantum = m.quantum)
    (memory : m'.memory = m.memory) (next : m'.nextAddress = m.nextAddress)
    (length : m'.scheduler.processes.length = m.scheduler.processes.length)
    (place : ∀ key p', m'.scheduler.process? key = some p' →
      ∃ p, m.scheduler.process? key = some p ∧ p'.place = p.place) : Layout ps m' := by
  refine ⟨quantum ▸ h.quantum_pos, length.trans h.length, ?_, next.trans h.next, memory ▸ h.fits,
    memory ▸ h.unused⟩
  intro key P p' hP hp'
  obtain ⟨p, hp, same⟩ := place key p' hp'
  have placed := h.placed key P p hP hp
  have release := congrArg ControlBlock.releaseTime same
  have turn := congrArg ControlBlock.quantum same
  have lower := congrArg ControlBlock.lowerBound same
  refine ⟨release.trans placed.release, (turn.trans placed.quantum).trans quantum.symm,
    lower.trans placed.lower, ?_⟩
  rw [memory]
  exact placed.holds.of_place same

theorem of_inside (h : Layout ps m) (same : m'.inside = m.inside) : Layout ps m' := by
  have scheduler := Machine.scheduler_of_inside same
  refine h.of_place (Machine.quantum_of_inside same) (Machine.memory_of_inside same)
    (Machine.nextAddress_of_inside same) (by rw [scheduler]) ?_
  intro key p' hp'
  exact ⟨p', scheduler ▸ hp', rfl⟩

/-- One process is changed, and it is still in its program. -/
theorem of_change (h : Layout ps m) {f : ControlBlock → ControlBlock}
    (hp : m.scheduler.process? key = some p) (hP : Program.under ps key = some P)
    (change : Placed ps m key P (f p)) :
    Layout ps { m with scheduler := m.scheduler.amend key f } := by
  refine ⟨h.quantum_pos, (Scheduler.length_amend _ _ _).trans h.length, ?_, h.next, h.fits,
    h.unused⟩
  intro k Q q hQ hq
  simp only [Scheduler.process?_amend] at hq
  by_cases same : k = key
  · subst same
    rw [if_pos rfl, hp] at hq
    cases hP.symm.trans hQ
    cases hq
    exact ⟨change.release, change.quantum, change.lower, change.holds⟩
  · rw [if_neg same] at hq
    have placed := h.placed k Q q hQ hq
    exact ⟨placed.release, placed.quantum, placed.lower, placed.holds⟩

/-- The slots of a process lie before those of every later one. -/
theorem before (h : Layout ps m) {other : Int} {q : ControlBlock}
    (hp : m.scheduler.process? key = some p) (hq : m.scheduler.process? other = some q)
    (later : key < other) : p.upperBound < q.lowerBound := by
  obtain ⟨P, hP, placed⟩ := h.lookup hp
  obtain ⟨Q, hQ, placed'⟩ := h.lookup hq
  have upper := placed.holds.upper
  have lower := placed.lower
  have lower' := placed'.lower
  have extent : P.extent = P.lines.length + 3 := rfl
  have ends := Program.start_add_extent_le hP later
  omega

/-- The slots of two processes lie apart. -/
theorem apart (h : Layout ps m) {other : Int} {q : ControlBlock}
    (hp : m.scheduler.process? key = some p) (hq : m.scheduler.process? other = some q)
    (ne : other ≠ key) : q.upperBound < p.lowerBound ∨ p.upperBound < q.lowerBound :=
  (Int.lt_or_gt_of_ne ne).imp (h.before hq hp) (h.before hp hq)

/-- The slots of a process lie before the unused ones. -/
theorem upper_lt (h : Layout ps m) (hp : m.scheduler.process? key = some p) :
    p.upperBound < Program.extents ps := by
  obtain ⟨P, hP, placed⟩ := h.lookup hp
  have upper := placed.holds.upper
  have lower := placed.lower
  have extent : P.extent = P.lines.length + 3 := rfl
  have := Program.start_add_extent_le_extents hP
  omega

/-- A slot with a name that a variable may have is a reserved slot of a process. -/
theorem reserved_of_isVariable (h : Layout ps m) {a : Int} {s : Slot}
    (at_a : m.memory.slot? a = some s) (named : s.IsVariable) :
    ∃ key p, ∃ j : Nat, m.scheduler.process? key = some p ∧ j < 3 ∧ a = p.firstReserved + j := by
  obtain ⟨low, high⟩ := Memory.bounds_of_slot? at_a
  by_cases inside : a.toNat < Program.extents ps
  · obtain ⟨key, P, hP, after, before⟩ := Program.exists_start_le ps inside
    obtain ⟨p, known⟩ := h.process?_of_under hP
    have placed := h.placed key P p hP known
    have lower := placed.lower
    have first := placed.holds.firstReserved_eq
    have extent : P.extent = P.lines.length + 3 := rfl
    by_cases line : (a - p.lowerBound).toNat < P.lines.length
    · have at_line := placed.holds.line _ _ (List.getElem?_eq_getElem line)
      rw [show p.lowerBound + ((a - p.lowerBound).toNat : Int) = a by omega, at_a] at at_line
      cases at_line
      exact absurd named (Slot.not_isVariable_ofLine _)
    · exact ⟨key, p, (a - p.firstReserved).toNat, known, by omega, by omega⟩
  · have empty := h.unused a (by omega) high
    rw [at_a] at empty
    cases empty
    exact absurd rfl named.1

/-- A process binds a variable in its next slot. -/
theorem bind (h : Layout ps m) (hp : m.scheduler.process? key = some p) (room : p.bound < 3)
    {s : Slot} (named : s.IsVariable) {memory : Memory}
    (written : m.memory.write? p.nextSlot s = .ok memory) :
    Layout ps { m with
      memory, scheduler := m.scheduler.amend key fun p => { p with bound := p.bound + 1 } } := by
  obtain ⟨P, hP, placed⟩ := h.lookup hp
  have size : memory.size = m.memory.size := Memory.size_write written
  have own := placed.holds.nextSlot_mem room
  refine ⟨h.quantum_pos, (Scheduler.length_amend _ _ _).trans h.length, ?_, h.next,
    size ▸ h.fits, ?_⟩
  · intro k Q q hQ hq
    simp only [Scheduler.process?_amend] at hq
    by_cases same : k = key
    · subst same
      rw [if_pos rfl, hp] at hq
      cases hP.symm.trans hQ
      cases hq
      exact ⟨placed.release, placed.quantum, placed.lower, placed.holds.bind room named written⟩
    · rw [if_neg same] at hq
      have placed' := h.placed k Q q hQ hq
      refine ⟨placed'.release, placed'.quantum, placed'.lower, placed'.holds.of_slots ?_⟩
      intro a s' low high hs'
      have apart := h.apart hp hq same
      exact .inl ((Memory.slot?_write written a).trans ((if_neg (by omega)).trans hs'))
  · intro a low high
    have before := h.upper_lt hp
    rw [Memory.slot?_write written, if_neg (by omega)]
    exact h.unused a low (size ▸ high)

/-- The value of a variable is set. -/
theorem store (h : Layout ps m) {a : Int} {s s' : Slot} (at_a : m.memory.slot? a = some s)
    (named : s.IsVariable) (named' : s'.IsVariable) {memory : Memory}
    (written : m.memory.write? a s' = .ok memory) : Layout ps { m with memory } := by
  have size : memory.size = m.memory.size := Memory.size_write written
  refine ⟨h.quantum_pos, h.length, ?_, h.next, size ▸ h.fits, ?_⟩
  · intro k Q q hQ hq
    have placed := h.placed k Q q hQ hq
    refine ⟨placed.release, placed.quantum, placed.lower, placed.holds.of_slots ?_⟩
    intro b t low high ht
    change memory.slot? b = some t ∨ t.IsVariable ∧ ∃ s', memory.slot? b = some s' ∧ s'.IsVariable
    rw [Memory.slot?_write written]
    by_cases same : b = a
    · subst same
      cases at_a.symm.trans ht
      exact .inr ⟨named, s', if_pos rfl, named'⟩
    · exact .inl ((if_neg same).trans ht)
  · intro b low high
    have empty := h.unused b low (size ▸ high)
    have other : b ≠ a := by
      rintro rfl
      cases at_a.symm.trans empty
      exact named.1 rfl
    exact (Memory.slot?_write written b).trans ((if_neg other).trans empty)

end Layout

namespace Processor

variable {m m' : Machine}

theorem of_inside (h : Processor m) (same : m'.inside = m.inside) : Processor m' := by
  have scheduler := Machine.scheduler_of_inside same
  have current := Machine.current_of_inside same
  exact ⟨by rw [scheduler, current]; exact h.running, by rw [scheduler, current]; exact h.current⟩

end Processor

theorem Settled.of_inside {m m' : Machine} (h : Settled m) (same : m'.inside = m.inside) :
    Settled m' := by
  rw [Settled, Machine.scheduler_of_inside same, Machine.current_of_inside same]
  exact h

namespace Sound

variable {ps : List Program} {m m' : Machine} {key : Int} {p : ControlBlock}

theorem of_inside (h : Sound ps m) (same : m'.inside = m.inside) : Sound ps m' := by
  have scheduler := Machine.scheduler_of_inside same
  exact ⟨h.layout.of_inside same, scheduler ▸ h.orderly,
    h.processor.of_inside same⟩

/-- If the process on the processor is running, the running queue holds it and no other. -/
theorem queue_running (h : Sound ps m) (settled : Settled m) :
    m.scheduler.queue .running = m.current.toList := by
  cases current : m.current with
  | none =>
    refine List.eq_nil_iff_forall_not_mem.2 fun key hkey => ?_
    have busy := h.processor.running key hkey
    rw [current] at busy
    cases busy
  | some key =>
    obtain ⟨p, hp, runs⟩ := settled key current
    have mem := h.orderly.mem_queue_of_station hp (h.orderly.station?_of_running hp runs)
    refine List.perm_singleton.1 ((List.perm_ext_iff_of_nodup (h.orderly.nodup_queue .running)
      (List.nodup_singleton key)).2 fun k => ?_)
    rw [List.mem_singleton]
    constructor
    · intro hk
      have busy := h.processor.running k hk
      rw [current] at busy
      exact (Option.some.inj busy).symm
    · rintro rfl
      exact mem

end Sound

end RoundRobin
