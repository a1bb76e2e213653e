import RoundRobin.Proofs.Step

/-!
# Time on the processor

What the instructions of a process change while it has the processor, counted in ticks. Each of them
takes a tick and counts one for its process, whether it completes, blocks it or is executed in vain.
No other process changes but for the station at which it stands, nobody leaves the ready queue, and
nobody ends (`Spell`). A turn is a spell of at most the quantum (`Stretch.spell`).
-/

namespace RoundRobin

namespace Effect

variable {memory memory' : Memory} {s s' : Scheduler} {key : Int} {p : ControlBlock}
  {i : Instruction}

/-- An instruction changes no process but its own, apart from where it stands. -/
theorem body?_of_ne (effect : Effect memory s key p i memory' s') {k : Int} (ne : k ≠ key) :
    s'.body? k = s.body? k := by
  cases effect with
  | acquire | release | store | nothing => rfl
  | bind => exact s.body?_amend_of_ne ne _
  | wake front moved => exact moved.body?_eq k

/-- An instruction lets nobody leave the ready queue. -/
theorem ready_prefix (effect : Effect memory s key p i memory' s') :
    s.queue .ready <+: s'.queue .ready := by
  cases effect with
  | acquire | release => exact (Scheduler.queue_withPermits _ _ _ _).symm ▸ List.prefix_rfl
  | bind => exact (Scheduler.queue_amend _ _ _ _).symm ▸ List.prefix_rfl
  | store | nothing => exact List.prefix_rfl
  | wake front moved =>
    rw [moved.queue, if_pos rfl, Scheduler.queue_withPermits]
    exact List.prefix_append _ _

/-- An instruction that completes concerns no queues but the blocked ones and the ready one. -/
theorem queue_eq (effect : Effect memory s key p i memory' s') (st : Station) (ready : st ≠ .ready)
    (blocked : ∀ r, st ≠ .blocked r) : s'.queue st = s.queue st := by
  cases effect with
  | acquire | release => exact s.queue_withPermits _ _ _
  | bind => exact s.queue_amend _ _ _
  | store | nothing => rfl
  | wake front moved =>
    rw [moved.queue_of_ne (blocked _) ready, Scheduler.queue_withPermits]

end Effect

namespace Completion

variable {ps : List Program} {m m' : Machine} {key : Int} {p : ControlBlock} {i : Instruction}

/-- A process that completed an instruction has one more counted and stands at the next address. -/
theorem known (h : Sound ps m) (c : Completion key p i m m') :
    ∃ n, m'.scheduler.process? key
      = some { p with bound := n, executed := p.executed + 1, pc := p.pc + 1 } := by
  obtain ⟨facing, effect⟩ := c
  obtain ⟨n, hn⟩ := h.process?_of_effect facing effect
  obtain ⟨P, hP, placed, standing⟩ := h.next?_of_facing facing
  have counted := Scheduler.process?_amend_self hn ControlBlock.counted
  have holds := (((h.effect facing effect).charge key).layout.placed key P _ hP counted).holds
  have advanced := Scheduler.process?_amend_self counted ControlBlock.advance
  rw [holds.advance_eq standing] at advanced
  exact ⟨n, advanced⟩

theorem queue_eq (c : Completion key p i m m') (st : Station) (ready : st ≠ .ready)
    (blocked : ∀ r, st ≠ .blocked r) : m'.scheduler.queue st = m.scheduler.queue st := by
  obtain @⟨memory, s, facing, effect⟩ := c
  have advanced := (s.amend key ControlBlock.counted).queue_amend key ControlBlock.advance st
  have counted := s.queue_amend key ControlBlock.counted st
  exact (advanced.trans counted).trans (effect.queue_eq st ready blocked)

theorem ready_prefix (c : Completion key p i m m') :
    m.scheduler.queue .ready <+: m'.scheduler.queue .ready := by
  obtain ⟨facing, effect⟩ := c
  exact effect.ready_prefix

theorem body?_of_ne (c : Completion key p i m m') {k : Int} (ne : k ≠ key) :
    m'.scheduler.body? k = m.scheduler.body? k := by
  obtain @⟨memory, s, facing, effect⟩ := c
  have advanced := (s.amend key ControlBlock.counted).body?_amend_of_ne ne ControlBlock.advance
  have counted := s.body?_amend_of_ne ne ControlBlock.counted
  exact (advanced.trans counted).trans (effect.body?_of_ne ne)

end Completion

namespace Stall

variable {ps : List Program} {m m' : Machine} {key : Int} {p : ControlBlock} {i : Instruction}

theorem facing (stall : Stall key p i m m') : Facing m key p i := by
  obtain ⟨facing, -, -⟩ := stall
  exact facing

/-- A process that executed an instruction in vain has one more counted and stands where it stood. -/
theorem known (h : Sound ps m) (stall : Stall key p i m m') : ∃ n, m'.scheduler.process? key
    = some { p with bound := n, executed := p.executed + 1 } := by
  obtain ⟨facing, effect, -⟩ := stall
  obtain ⟨n, hn⟩ := h.process?_of_effect facing effect
  exact ⟨n, Scheduler.process?_amend_self hn ControlBlock.counted⟩

theorem body?_of_ne (stall : Stall key p i m m') {k : Int} (ne : k ≠ key) :
    m'.scheduler.body? k = m.scheduler.body? k := by
  obtain @⟨memory, s, facing, effect, -⟩ := stall
  exact (s.body?_amend_of_ne ne ControlBlock.counted).trans (effect.body?_of_ne ne)

theorem queue_eq (stall : Stall key p i m m') (st : Station) (ready : st ≠ .ready)
    (blocked : ∀ r, st ≠ .blocked r) : m'.scheduler.queue st = m.scheduler.queue st := by
  obtain @⟨memory, s, facing, effect, -⟩ := stall
  exact (s.queue_amend key ControlBlock.counted st).trans (effect.queue_eq st ready blocked)

theorem ready_prefix (stall : Stall key p i m m') :
    m.scheduler.queue .ready <+: m'.scheduler.queue .ready := by
  obtain ⟨facing, effect, -⟩ := stall
  exact effect.ready_prefix

end Stall

namespace Blocking

variable {m m' : Machine} {key : Int} {p : ControlBlock} {r : Resource}

/-- A process that was blocked has one more instruction counted and stands where it stood. -/
theorem known (b : Blocking key p r m m') :
    m'.scheduler.process? key = some (p.enter (.blocked r)).counted := by
  obtain ⟨facing, used_up, moved⟩ := b
  exact Scheduler.process?_amend_self (moved.process?_self facing.known) _

theorem body?_of_ne (b : Blocking key p r m m') {k : Int} (ne : k ≠ key) :
    m'.scheduler.body? k = m.scheduler.body? k := by
  obtain @⟨s, facing, used_up, moved⟩ := b
  exact (s.body?_amend_of_ne ne ControlBlock.counted).trans (moved.body?_eq k)

theorem queue (b : Blocking key p r m m') (st : Station) (ne : st ≠ .running)
    (ne' : st ≠ .blocked r) : m'.scheduler.queue st = m.scheduler.queue st := by
  obtain ⟨facing, used_up, moved⟩ := b
  exact (Scheduler.queue_amend _ _ _ _).trans (moved.queue_of_ne ne ne')

theorem queue_blocked (b : Blocking key p r m m') :
    m'.scheduler.queue (.blocked r) = m.scheduler.queue (.blocked r) ++ [key] := by
  obtain ⟨facing, used_up, moved⟩ := b
  exact (Scheduler.queue_amend _ _ _ _).trans ((moved.queue _).trans (if_pos rfl))

end Blocking

/-- The metrics after some ticks in which instructions were executed. -/
def Metrics.spent (x : Metrics) (n : Nat) : Metrics :=
  { x with activeTicks := x.activeTicks + n, totalTicks := x.totalTicks + n }

/-- The process under a key spends some ticks on the processor. -/
structure Spell (key : Int) (n : Nat) (m m' : Machine) : Prop where
  now : m'.now = m.now + n
  quantum : m'.quantum = m.quantum
  metrics : m'.metrics = m.metrics.spent n
  own : ∀ p, m.scheduler.process? key = some p → ∃ p', m'.scheduler.process? key = some p' ∧
    p'.executed = p.executed + n ∧ p'.releaseTime = p.releaseTime ∧ p'.startTime = p.startTime ∧
      p'.endTime = p.endTime
  others : ∀ k, k ≠ key → m'.scheduler.body? k = m.scheduler.body? k
  ready : m.scheduler.queue .ready <+: m'.scheduler.queue .ready
  pending : m'.scheduler.queue .pending = m.scheduler.queue .pending
  terminated : m'.scheduler.queue .terminated = m.scheduler.queue .terminated

namespace Spell

variable {ps : List Program} {m m' m'' : Machine} {key : Int} {p : ControlBlock} {i : Instruction}
  {r : Resource} {n k : Nat}

theorem of_inside (same : m'.inside = m.inside) : Spell key 0 m m' := by
  have scheduler := Machine.scheduler_of_inside same
  refine ⟨?_, Machine.quantum_of_inside same, ?_, ?_, ?_, ?_, ?_, ?_⟩
  · rw [Machine.now_of_inside same, Int.natCast_zero, Int.add_zero]
  · rw [Machine.metrics_of_inside same, Metrics.spent, Int.natCast_zero, Int.add_zero, Int.add_zero]
  · intro p known
    exact ⟨p, scheduler ▸ known, (Int.add_zero _).symm, rfl, rfl, rfl⟩
  · exact fun k _ => by rw [scheduler]
  · exact scheduler ▸ List.prefix_rfl
  · rw [scheduler]
  · rw [scheduler]

theorem trans (h : Spell key n m m') (h' : Spell key k m' m'') : Spell key (n + k) m m'' := by
  refine ⟨?_, h'.quantum.trans h.quantum, ?_, ?_, ?_, h.ready.trans h'.ready,
    h'.pending.trans h.pending, h'.terminated.trans h.terminated⟩
  · rw [h'.now, h.now, Int.natCast_add, Int.add_assoc]
  · rw [h'.metrics, h.metrics]
    simp only [Metrics.spent, Int.natCast_add, Int.add_assoc]
  · intro p known
    obtain ⟨p', known', executed, release, start, stop⟩ := h.own p known
    obtain ⟨p'', known'', executed', release', start', stop'⟩ := h'.own p' known'
    exact ⟨p'', known'', by omega, release'.trans release, start'.trans start, stop'.trans stop⟩
  · exact fun other ne => (h'.others other ne).trans (h.others other ne)

theorem of_completion (h : Sound ps m) (c : Completion key p i m m') : Spell key 1 m m' := by
  obtain ⟨bound, known'⟩ := c.known h
  have others := fun k ne => c.body?_of_ne (k := k) ne
  have pending := c.queue_eq .pending nofun nofun
  have terminated := c.queue_eq .terminated nofun nofun
  have ready := c.ready_prefix
  have now := c.now
  have facing := c.facing
  obtain ⟨-, -⟩ := c
  refine ⟨now, rfl, rfl, ?_, others, ready, pending, terminated⟩
  intro q known
  cases facing.known.symm.trans known
  exact ⟨_, known', rfl, rfl, rfl, rfl⟩

theorem of_blocking (b : Blocking key p r m m') : Spell key 1 m m' := by
  have known' := b.known
  have others := fun k ne => b.body?_of_ne (k := k) ne
  have ready := b.queue .ready nofun nofun
  have pending := b.queue .pending nofun nofun
  have terminated := b.queue .terminated nofun nofun
  have now := b.now
  have facing := b.facing
  obtain ⟨-, -, -⟩ := b
  refine ⟨now, rfl, rfl, ?_, others, ready ▸ List.prefix_rfl, pending, terminated⟩
  intro q known
  cases facing.known.symm.trans known
  exact ⟨_, known', rfl, rfl, rfl, rfl⟩

theorem of_stall (h : Sound ps m) (stall : Stall key p i m m') : Spell key 1 m m' := by
  obtain ⟨bound, known'⟩ := stall.known h
  have others := fun k ne => stall.body?_of_ne (k := k) ne
  have pending := stall.queue_eq .pending nofun nofun
  have terminated := stall.queue_eq .terminated nofun nofun
  have ready := stall.ready_prefix
  have facing := stall.facing
  obtain ⟨-, -, -⟩ := stall
  refine ⟨rfl, rfl, rfl, ?_, others, ready, pending, terminated⟩
  intro q known
  cases facing.known.symm.trans known
  exact ⟨_, known', rfl, rfl, rfl, rfl⟩

theorem of_charge (m : Machine) (key : Int) : Spell key 1 m (m.charge key) := by
  have queue : ∀ st, (m.charge key).scheduler.queue st = m.scheduler.queue st :=
    fun st => m.scheduler.queue_amend key ControlBlock.counted st
  have ready : m.scheduler.queue .ready <+: (m.charge key).scheduler.queue .ready :=
    (queue .ready).symm ▸ List.prefix_rfl
  refine ⟨rfl, rfl, rfl, fun q known => ?_, fun k ne => ?_, ready, queue _, queue _⟩
  · exact ⟨_, Scheduler.process?_amend_self known _, rfl, rfl, rfl, rfl⟩
  · exact m.scheduler.body?_amend_of_ne ne ControlBlock.counted

end Spell

/-- An instruction whose pause is refused takes its tick, too. -/
theorem Hindered.spell {ps : List Program} {m m' : Machine} {key : Int} (hindered : Hindered key m m')
    (h : Sound ps m) : Spell key 1 m m' := by
  cases hindered with
  | stalls stall same => exact (Spell.of_stall h stall).trans (.of_inside same)
  | blocks blocking _ same => exact (Spell.of_blocking blocking).trans (.of_inside same)

/-- A process whose pause was refused has one more instruction counted. -/
theorem Hindered.known {ps : List Program} {m m' : Machine} {key : Int} {p : ControlBlock}
    (hindered : Hindered key m m') (h : Sound ps m) (known : m.scheduler.process? key = some p) :
    ∃ p', m'.scheduler.process? key = some p' ∧ p'.executed = p.executed + 1 := by
  obtain ⟨p', known', executed, -⟩ := (hindered.spell h).own p known
  exact ⟨p', known', executed⟩

theorem Completions.spell {ps : List Program} {m m' : Machine} {key : Int} {n : Nat}
    (c : Completions key n m m') (h : Sound ps m) : Spell key n m m' := by
  induction c with
  | none same => exact .of_inside same
  | @more p i n m m₁ m₂ m' completion same _ ih =>
    have first := (Spell.of_completion h completion).trans (.of_inside same)
    rw [Nat.add_comm]
    exact first.trans (ih ((h.complete completion).of_inside same))

/-- A turn that ends in a fault is a spell of at most the quantum. -/
theorem Halt.spell {ps : List Program} {key : Int} {n : Nat} {fault : Fault} {m m' : Machine}
    (halt : Halt key n fault m m') (h : Sound ps m) : ∃ k, k ≤ n ∧ Spell key k m m' := by
  cases halt with
  | broken broken =>
    obtain ⟨done, lt, facing⟩ := broken
    exact ⟨_, Nat.le_of_lt lt, done.spell h⟩
  | hindered some_left pauses hindered => exact ⟨1, some_left, hindered.spell h⟩

theorem Completions.facing {m m' : Machine} {key : Int} {n : Nat}
    (c : Completions key n m m') (some_done : 0 < n) : ∃ p i, Facing m key p i := by
  cases c with
  | none => exact absurd some_done (Nat.lt_irrefl 0)
  | more completion => exact ⟨_, _, completion.facing⟩

/-- A turn is a spell of at most the quantum. It is empty only if the process is at its end, and then
nothing happens. Else the process faced an instruction. -/
theorem Stretch.spell {ps : List Program} {m m' : Machine} {key : Int} {n : Nat}
    (stretch : Stretch key n m m') (h : Sound ps m) :
    ∃ k, k ≤ n ∧ Spell key k m m' ∧ (k = 0 → n = 0 ∨ m.AtEnd key ∧ m'.inside = m.inside) ∧
      (0 < k → ∃ p i, Facing m key p i) := by
  cases stretch with
  | @stops k _ done le cause =>
    refine ⟨k, le, done.spell h, fun zero => ?_, done.facing⟩
    cases done with
    | none same => exact cause.imp Eq.symm fun at_end => ⟨at_end.of_inside same.symm, same⟩
    | more => cases zero
  | @blocks k p r m₁ m₂ _ done lt blocking same =>
    refine ⟨k + 1, lt, (done.spell h).trans ((Spell.of_blocking blocking).trans (.of_inside same)),
      nofun, fun _ => ?_⟩
    cases done with
    | none same₀ => exact ⟨_, _, blocking.facing.of_inside same₀.symm⟩
    | more completion => exact ⟨_, _, completion.facing⟩

end RoundRobin
