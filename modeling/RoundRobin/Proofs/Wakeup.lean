import RoundRobin.Proofs.Position
import RoundRobin.Proofs.Reachable

/-!
# No lost wake-up

A signal wakes one of the processes that wait for a resource and leaves the permit to whoever asks
first, so others may sleep while the permit is free. They are not forgotten: as long as the permit
is free and somebody sleeps, a process that is awake is about to wait for the resource, and will
take the permit (`Watched`). Whatever the programs do, this is kept: the woken process itself is
about to wait, and it stays so until it has the permit or sleeps again because somebody else has it.
-/

namespace RoundRobin

/-- The process under a key is about to wait for a resource. -/
def AboutToWait (ps : List Program) (r : Resource) (s : Scheduler) (key : Int) : Prop :=
  ∃ x, s.position? key = some x ∧ (Program.ahead ps x).head? = some (.semWait r)

/-- The process under a key is ready or running. -/
def Scheduler.Awake (s : Scheduler) (key : Int) : Prop :=
  key ∈ s.queue .ready ∨ key ∈ s.queue .running

/-- There is at most one permit; all that sleep are about to wait; and while the permit is free and
somebody sleeps, somebody awake is about to wait. -/
structure Watched (ps : List Program) (r : Resource) (s : Scheduler) : Prop where
  permits : s.permits r = 0 ∨ s.permits r = 1
  asleep : ∀ key, key ∈ s.queue (.blocked r) → AboutToWait ps r s key
  awake : s.permits r = 1 → ∀ key, key ∈ s.queue (.blocked r) →
    ∃ other, s.Awake other ∧ AboutToWait ps r s other

namespace Transfer

variable {key k : Int} {a b st : Station} {s s' : Scheduler}

theorem mem_of_ne_station (t : Transfer key a b s s') (ne : st ≠ b) (h : k ∈ s'.queue st) :
    k ∈ s.queue st := by
  rw [t.queue, if_neg ne] at h
  split at h
  · rename_i same
    exact same ▸ List.mem_of_mem_erase h
  · exact h

theorem mem_self (t : Transfer key a b s s') : key ∈ s'.queue b := by
  rw [t.queue, if_pos rfl]
  exact List.mem_append_right _ (List.mem_singleton_self key)

/-- Who is awake stays awake, but for the process that is moved elsewhere. -/
theorem awake (t : Transfer key a b s s') (h : s.Awake k)
    (kept : b = .ready ∨ b = .running ∨ k ≠ key) : s'.Awake k := by
  by_cases same : k = key
  · subst same
    rcases kept with rfl | rfl | ne
    · exact .inl t.mem_self
    · exact .inr t.mem_self
    · exact absurd rfl ne
  · exact h.imp (t.mem_queue_of_ne same _).2 (t.mem_queue_of_ne same _).2

end Transfer

namespace Effect

variable {memory memory' : Memory} {s s' : Scheduler} {key k : Int} {p : ControlBlock}
  {i : Instruction} {r : Resource}

/-- No instruction that completes puts a process to sleep. -/
theorem mem_blocked (effect : Effect memory s key p i memory' s') (h : k ∈ s'.queue (.blocked r)) :
    k ∈ s.queue (.blocked r) := by
  cases effect with
  | acquire | release => rwa [Scheduler.queue_withPermits] at h
  | bind => rwa [Scheduler.queue_amend] at h
  | wake front moved =>
    have before := moved.mem_of_ne_station (by simp) h
    rwa [Scheduler.queue_withPermits] at before
  | store | nothing => exact h

theorem awake (effect : Effect memory s key p i memory' s') (h : s.Awake k) : s'.Awake k := by
  cases effect with
  | acquire | release => rwa [Scheduler.Awake, Scheduler.queue_withPermits, Scheduler.queue_withPermits]
  | bind => rwa [Scheduler.Awake, Scheduler.queue_amend, Scheduler.queue_amend]
  | wake front moved =>
    refine moved.awake ?_ (.inl rfl)
    rwa [Scheduler.Awake, Scheduler.queue_withPermits, Scheduler.queue_withPermits]
  | store | nothing => exact h

/-- If somebody sleeps on after a signal, then somebody was woken. -/
theorem woken (effect : Effect memory s key p (.semSignal r) memory' s')
    (h : k ∈ s'.queue (.blocked r)) : ∃ other, other ∈ s.queue (.blocked r) ∧ s'.Awake other := by
  have before := effect.mem_blocked h
  cases effect with
  | release nobody =>
    rw [nobody] at before
    cases before
  | @wake _ other rest _ front moved =>
    refine ⟨other, ?_, .inl moved.mem_self⟩
    rw [front]
    exact List.mem_cons_self
  | nothing plain => exact absurd rfl (plain r).2

end Effect

namespace AboutToWait

variable {ps : List Program} {r : Resource} {s s' : Scheduler} {key : Int}

theorem of_position? (h : AboutToWait ps r s key) (same : s'.position? key = s.position? key) :
    AboutToWait ps r s' key := by
  rw [AboutToWait, same]
  exact h

theorem of_positions (h : AboutToWait ps r s key) (same : s'.positions = s.positions) :
    AboutToWait ps r s' key :=
  h.of_position? (Scheduler.position?_eq same key)

theorem load {m m' : Machine} {P : Program} (h : AboutToWait ps r m.scheduler key)
    (sound : Sound ps m) (load : Load P m m') : AboutToWait (ps ++ [P]) r m'.scheduler key := by
  obtain ⟨released, loaded, arrival⟩ := load
  obtain ⟨x, position, next⟩ := h
  obtain ⟨p, known, rfl⟩ := Option.map_eq_some_iff.1 position
  have code := sound.code_append_of_mem P (Scheduler.position_mem_positions known)
  refine ⟨p.position, ?_, ?_⟩
  · rw [Scheduler.position?, arrival.process?_of_some known]
    rfl
  · rw [Program.ahead, code]
    exact next

end AboutToWait

theorem Sound.aboutToWait_iff {ps : List Program} {m : Machine} (h : Sound ps m) {key : Int}
    {p : ControlBlock} (known : m.scheduler.process? key = some p) (r : Resource) :
    AboutToWait ps r m.scheduler key
      ↔ (m.memory.instructionSlot? p.pc).map Prod.snd = some (.semWait r) := by
  rw [← h.head?_ahead known, AboutToWait, Scheduler.position?, known]
  constructor
  · rintro ⟨x, position, next⟩
    cases position
    exact next
  · intro next
    exact ⟨p.position, rfl, next⟩

namespace Watched

variable {ps : List Program} {r : Resource} {s s' : Scheduler} {key : Int} {a b : Station}

theorem of_amend (h : Watched ps r s) {f : ControlBlock → ControlBlock}
    (same : ∀ p, (f p).position = p.position) : Watched ps r (s.amend key f) := by
  have positions : (s.amend key f).positions = s.positions := Scheduler.positions_amend same
  refine ⟨h.permits, fun k hk => ?_, fun free k hk => ?_⟩
  · rw [Scheduler.queue_amend] at hk
    exact (h.asleep k hk).of_positions positions
  · rw [Scheduler.queue_amend] at hk
    obtain ⟨other, awake, about⟩ := h.awake free k hk
    refine ⟨other, ?_, about.of_positions positions⟩
    rw [Scheduler.Awake, Scheduler.queue_amend, Scheduler.queue_amend]
    exact awake

/-- A process is moved that stays awake or is not about to wait, and not to sleep. -/
theorem of_transfer (h : Watched ps r s) (t : Transfer key a b s s') (elsewhere : b ≠ .blocked r)
    (kept : b = .ready ∨ b = .running ∨ ¬AboutToWait ps r s key) : Watched ps r s' := by
  have positions := Scheduler.positions_of_transfer t
  refine ⟨?_, fun k hk => ?_, fun free k hk => ?_⟩
  · rw [t.permits]
    exact h.permits
  · exact (h.asleep k (t.mem_of_ne_station elsewhere.symm hk)).of_positions positions
  · rw [t.permits] at free
    obtain ⟨other, awake, about⟩ := h.awake free k (t.mem_of_ne_station elsewhere.symm hk)
    refine ⟨other, t.awake awake ?_, about.of_positions positions⟩
    exact kept.imp_right (Or.imp_right fun (idle : ¬_) same => idle (same ▸ about))

/-- A process goes to sleep because the permit is not free. -/
theorem of_block (h : Watched ps r s) (t : Transfer key a (.blocked r) s s')
    (used_up : ¬0 < s.permits r) (about : AboutToWait ps r s key) : Watched ps r s' := by
  have positions := Scheduler.positions_of_transfer t
  have none_left : s'.permits r = 0 := by
    have := h.permits
    rw [t.permits]
    omega
  refine ⟨.inl none_left, fun k hk => ?_, fun free => ?_⟩
  · rw [t.queue, if_pos rfl] at hk
    rcases List.mem_append.1 hk with old | new
    · exact (h.asleep k old).of_positions positions
    · rw [List.mem_singleton.1 new]
      exact about.of_positions positions
  · rw [none_left] at free
    cases free

variable {m m' : Machine} {p : ControlBlock} {i : Instruction}

/-- Whoever executes an instruction neither sleeps nor is about to wait for a resource that the
instruction does not ask for, so it is nobody that is watched. -/
theorem of_effect (h : Watched ps r m.scheduler) (sound : Sound ps m) (facing : Facing m key p i)
    {memory : Memory} (effect : Effect m.memory m.scheduler key p i memory s)
    (permits : ∀ r, s'.permits r = s.permits r) (queue : ∀ st, s'.queue st = s.queue st)
    (others : ∀ k, k ≠ key → s'.position? k = m.scheduler.position? k) : Watched ps r s' := by
  have about_key := sound.aboutToWait_iff facing.known r
  rw [facing.instruction] at about_key
  -- a process that sleeps is not the one that completed its instruction
  have asleep : ∀ k, k ∈ m.scheduler.queue (.blocked r) → AboutToWait ps r s' k := by
    intro k hk
    refine (h.asleep k hk).of_position? (others k ?_)
    rintro rfl
    have state := sound.orderly.state_of_mem hk facing.known
    rw [facing.runs] at state
    cases state
  have awake : ∀ k, s.Awake k → s'.Awake k := by
    intro k hk
    rwa [Scheduler.Awake, queue, queue]
  refine ⟨?_, fun k hk => ?_, fun free k hk => ?_⟩
  · rw [permits]
    by_cases wait : i = .semWait r
    · subst wait
      have := effect.permits_of_wait
      have := h.permits
      omega
    · by_cases signal : i = .semSignal r
      · subst signal
        exact .inr effect.permits_of_signal
      · rw [effect.permits_of_ne wait signal]
        exact h.permits
  · rw [queue] at hk
    exact asleep k (effect.mem_blocked hk)
  · rw [queue] at hk
    rw [permits] at free
    by_cases wait : i = .semWait r
    · subst wait
      have := effect.permits_of_wait
      have := h.permits
      omega
    · by_cases signal : i = .semSignal r
      · subst signal
        obtain ⟨other, slept, woken⟩ := effect.woken hk
        exact ⟨other, awake other woken, asleep other slept⟩
      · rw [effect.permits_of_ne wait signal] at free
        obtain ⟨other, before, about⟩ := h.awake free k (effect.mem_blocked hk)
        refine ⟨other, awake other (effect.awake before), about.of_position? (others other ?_)⟩
        rintro rfl
        exact wait (Option.some.inj (about_key.1 about))

theorem complete (h : Watched ps r m.scheduler) (sound : Sound ps m)
    (c : Completion key p i m m') : Watched ps r m'.scheduler := by
  obtain ⟨memory, s, effect, permits, queue, others⟩ := c.effect
  exact h.of_effect sound c.facing effect permits queue others

theorem work (h : Watched ps r m.scheduler) (sound : Sound ps m) (work : Work m m') :
    Watched ps r m'.scheduler := by
  cases work with
  | outside same =>
    rw [Machine.scheduler_of_inside same]
    exact h
  | promote known stands due moved => exact h.of_transfer moved (by simp) (.inl rfl)
  | dispatch dispatch =>
    obtain ⟨idle, front, known, moved⟩ := dispatch
    exact (h.of_transfer moved (by simp) (.inr (.inl rfl))).of_amend fun _ => rfl
  | complete completion => exact h.complete sound completion
  | @block key p other m' blocking =>
    obtain ⟨facing, used_up, moved⟩ := blocking
    have about := (sound.aboutToWait_iff facing.known r).trans (by rw [facing.instruction])
    by_cases same : other = r
    · subst same
      exact (h.of_block moved used_up (about.2 rfl)).of_amend fun _ => rfl
    · have unmoved : ¬AboutToWait ps r m.scheduler key := by
        rw [about]
        simpa using same
      exact (h.of_transfer moved (by simpa using same) (.inr (.inr unmoved))).of_amend fun _ => rfl
  | @depart key start m' departure =>
    cases departure with
    | yield => exact h
    | preempt facing moved => exact h.of_transfer moved (by simp) (.inl rfl)
    | @terminate p s record current known runs at_end moved recorded =>
      have ended : Watched ps r (m.scheduler.amend key (ControlBlock.ended m.now)) :=
        h.of_amend fun _ => rfl
      refine ended.of_transfer moved (by simp) (.inr (.inr fun about => ?_))
      have alike := Alike.of_amend m.scheduler key (f := ControlBlock.ended m.now) fun _ => rfl
      have about' := about.of_positions alike.positions.symm
      rw [sound.aboutToWait_iff known, at_end] at about'
      cases about'

theorem load (h : Watched ps r m.scheduler) (sound : Sound ps m) {P : Program}
    (load : Load P m m') : Watched (ps ++ [P]) r m'.scheduler := by
  have about : ∀ k, AboutToWait ps r m.scheduler k → AboutToWait (ps ++ [P]) r m'.scheduler k :=
    fun k hk => hk.load sound load
  obtain ⟨released, loaded, arrival⟩ := load
  refine ⟨?_, fun k hk => ?_, fun free k hk => ?_⟩
  · rw [arrival.permits]
    exact h.permits
  · rw [arrival.queue, if_neg (by simp)] at hk
    exact about k (h.asleep k hk)
  · rw [arrival.queue, if_neg (by simp)] at hk
    rw [arrival.permits] at free
    obtain ⟨other, awake, waits⟩ := h.awake free k hk
    refine ⟨other, ?_, about other waits⟩
    rwa [Scheduler.Awake, arrival.queue, arrival.queue, if_neg (by decide), if_neg (by decide)]

theorem move (h : Watched ps r m.scheduler) (sound : Sound ps m) (move : Move m m') :
    Watched ps r m'.scheduler := by
  cases move with
  | idle => exact h
  | work work => exact h.work sound work
  | stall stall =>
    obtain ⟨memory, s, effect, permits, queue, positions⟩ := stall.effect
    obtain ⟨facing, -, -⟩ := stall
    exact h.of_effect sound facing effect permits queue fun k _ => Scheduler.position?_eq positions k
  | linger stuck => exact h.of_amend fun _ => rfl

theorem empty (r : Resource) : Watched [] r {} := by
  refine ⟨.inr ?_, fun k hk => ?_, fun _ k hk => ?_⟩
  · cases r <;> rfl
  · rw [Scheduler.queue_empty] at hk
    cases hk
  · rw [Scheduler.queue_empty] at hk
    cases hk

end Watched

/-- The process under a key has its next instruction before it, in memory. -/
def Machine.StandsAt (m : Machine) (key : Int) (i : Instruction) : Prop :=
  ∃ p, m.scheduler.process? key = some p ∧ (m.memory.instructionSlot? p.pc).map Prod.snd = some i

theorem Mirrors.standsAt {s m : Machine} (h : Mirrors s m) {key : Int} {i : Instruction}
    (stands : s.StandsAt key i) : m.StandsAt key i := by
  obtain ⟨p, known, instruction⟩ := stands
  refine ⟨p, (h.process? key).trans known, ?_⟩
  rw [h.memory]
  exact instruction

theorem Sound.standsAt_of_aboutToWait {ps : List Program} {m : Machine} (h : Sound ps m) {key : Int}
    {r : Resource} (about : AboutToWait ps r m.scheduler key) : m.StandsAt key (.semWait r) := by
  obtain ⟨x, position, -⟩ := id about
  obtain ⟨p, known, -⟩ := Option.map_eq_some_iff.1 position
  exact ⟨p, known, (h.aboutToWait_iff known r).1 about⟩

/-- A resource is watched wherever the machine gets. -/
theorem Passed.watched {ps : List Program} {m : Machine} (h : Passed ps m) (r : Resource) :
    ∃ s, Seen ps s m ∧ Watched ps r s.scheduler :=
  h.invariant (Q := fun ps m => Watched ps r m.scheduler)
    (fun _ _ empty => empty ▸ Watched.empty r)
    (fun _ _ _ _ sound watched load => watched.load sound load)
    (fun _ _ _ sound watched move => watched.move sound move)

/-- Wherever the machine gets and whatever the programs do, a resource has one permit or none, who
waits for it stands at an instruction that asks for it, and if it is free while somebody waits,
then somebody who is ready or running stands at such an instruction. So in a deadlock no resource is
free for which somebody waits. -/
theorem Passed.no_lost_wakeup {ps : List Program} {m : Machine} (h : Passed ps m) (r : Resource) :
    ((m.scheduler.semaphores.get r).count = 0 ∨ (m.scheduler.semaphores.get r).count = 1) ∧
      (∀ key ∈ m.scheduler.blocked r, m.StandsAt key (.semWait r)) ∧
      ((m.scheduler.semaphores.get r).count = 1 → m.scheduler.blocked r ≠ [] →
        ∃ key p, m.scheduler.process? key = some p ∧ (p.state = .ready ∨ p.state = .running) ∧
          m.StandsAt key (.semWait r)) ∧
      (m.isDeadlocked → m.scheduler.blocked r ≠ [] → (m.scheduler.semaphores.get r).count = 0) := by
  obtain ⟨s, seen, watched⟩ := h.watched r
  have sound := seen.sound
  have mirrors := seen.mirrors
  have permits : (m.scheduler.semaphores.get r).count = s.scheduler.permits r := mirrors.permits r
  have asleep : ∀ key ∈ m.scheduler.blocked r, key ∈ s.scheduler.queue (.blocked r) :=
    fun key waits => (mirrors.waits r key).1 waits
  have stands : ∀ key, AboutToWait ps r s.scheduler key → m.StandsAt key (.semWait r) :=
    fun key about => mirrors.standsAt (sound.standsAt_of_aboutToWait about)
  rw [permits]
  refine ⟨watched.permits, fun key waits => stands key (watched.asleep key (asleep key waits)), ?_, ?_⟩
  · intro free somebody
    obtain ⟨key, waits⟩ := List.exists_mem_of_ne_nil _ somebody
    obtain ⟨other, awake, about⟩ := watched.awake free key (asleep key waits)
    obtain ⟨p, known, -⟩ := id (stands other about)
    refine ⟨other, p, known, ?_, stands other about⟩
    rw [mirrors.process?] at known
    rcases awake with ready | running
    · have state := sound.orderly.state_of_mem ready known
      exact .inl state
    · have state := sound.orderly.state_of_mem running known
      exact .inr state
  · intro deadlocked somebody
    refine watched.permits.resolve_right fun free => ?_
    obtain ⟨key, waits⟩ := List.exists_mem_of_ne_nil _ somebody
    obtain ⟨other, awake, -⟩ := watched.awake free key (asleep key waits)
    obtain ⟨idle, nobody, -, -⟩ := m.isDeadlocked_iff.1 deadlocked
    rw [mirrors.current] at idle
    rw [mirrors.queue .ready (fun _ => Station.noConfusion)] at nobody
    rcases awake with ready | running
    · rw [nobody] at ready
      cases ready
    · have busy := sound.processor.running other running
      rw [idle] at busy
      cases busy

/-- The second of three processes was woken by the first one while the third sleeps on. -/
theorem Passed.no_lost_wakeup_third : ∃ m, Passed [⟨["semWait file", "semSignal file"], 0⟩,
      ⟨["semWait file"], 0⟩, ⟨["semWait file"], 0⟩] m ∧ m.scheduler.blocked .file = [3] ∧
    ∃ key p, m.scheduler.process? key = some p ∧ (p.state = .ready ∨ p.state = .running) ∧
      m.StandsAt key (.semWait .file) := by
  have made := Reachable.fresh 1 20 (by decide) (by decide)
  have first := made.after_createProcess ["semWait file", "semSignal file"] 0 (by decide) (by decide)
  have second := first.after_createProcess ["semWait file"] 0 (by decide) (by decide +kernel)
  have third := second.after_createProcess ["semWait file"] 0 (by decide) (by decide +kernel)
  have passed := Passed.reached third.step.step.step.step
  have awake := (passed.no_lost_wakeup .file).2.2.1 (by decide +kernel) (by decide +kernel)
  exact ⟨_, passed, by decide +kernel, awake⟩

end RoundRobin
