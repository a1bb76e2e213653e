import RoundRobin.Proofs.Load
import RoundRobin.Proofs.Run

/-!
# Reachable machines

The machines that any sequence of requests leads to, with the programs that were loaded on the way
(`Reachable`), and those that are passed between two instructions of a turn (`Passed`). All of them
are sound, unless the pause after an instruction is refused; then a sound machine still tells all but how
often a process waits (`Kept`, `Seen`). What holds of a machine without processes, and is kept by loading
and by every move from a sound machine, holds of all these sound machines (`Passed.invariant`).
-/

namespace RoundRobin

open Operation

/-- The machines to which requests lead, with the programs that were loaded. A request that ends in
a fault leads on as well. Between requests the files and the input may change, and within a run
there are notices. -/
inductive Reachable : List Program → Machine → Prop where
  | create {quantum : Setting} {memorySize : Int} {verbose : Bool} {delay : Binary64}
    {storage : Storage} {inputs : List String} {sleep : Sleep} {m : Machine}
    (made : Machine.create? quantum memorySize verbose delay storage inputs sleep = .ok m) :
    Reachable [] m
  | load {ps : List Program} {lines : List String} {release : Setting} {time : Int}
    {m m' : Machine} (before : Reachable ps m) (given : release.integer? = some time)
    (admits : m.Admits lines release m') : Reachable (ps ++ [⟨lines, time⟩]) m'
  | refuse {ps : List Program} {lines : List String} {release : Setting} {fault : Fault}
    {m m' : Machine} (before : Reachable ps m)
    (refused : Machine.createProcess lines release m = .error fault m')
    (known : fault ≠ .numeralTooLong) : Reachable ps m'
  | step {ps : List Program} {m : Machine} (before : Reachable ps m) :
    Reachable ps (after Machine.step m)
  | run {ps : List Program} {m : Machine} (before : Reachable ps m) (limit : Option Int) :
    Reachable ps (after (Machine.run limit) m)
  | shutdown {ps : List Program} {m : Machine} (before : Reachable ps m)
    (chartFile resultsFile : Option String) :
    Reachable ps (after (Machine.shutdown chartFile resultsFile) m)
  | outside {ps : List Program} {m : Machine} (before : Reachable ps m) (storage : Storage)
    (inputs : List String) : Reachable ps { m with storage, inputs }
  | notice {ps : List Program} {m : Machine} (before : Reachable ps m) (n : Notice) :
    Reachable ps (m.record (.notice n))

/-- The machines that are seen between two instructions: those to which requests lead, and those
within the turn of a step. -/
inductive Passed : List Program → Machine → Prop where
  | reached {ps : List Program} {m : Machine} (reachable : Reachable ps m) : Passed ps m
  | within {ps : List Program} {m : Machine} (before : Reachable ps m) {k : Nat}
    (short : k ≤ m.quantum) : Passed ps (after (Machine.beginStep k) m)

namespace Scheduler

theorem process?_empty (key : Int) : ({} : Scheduler).process? key = none := by
  unfold process? ProcessTable.process?
  split <;> rfl

theorem queue_empty (st : Station) : ({} : Scheduler).queue st = [] := by
  cases st with
  | blocked r => cases r <;> rfl
  | _ => rfl

theorem orderly_empty : ({} : Scheduler).Orderly := by
  refine ⟨fun key p hp => ?_, fun key p hp => ?_, fun key st => ?_⟩
  · cases (process?_empty key).symm.trans hp
  · cases (process?_empty key).symm.trans hp
  · rw [stationOf, process?_empty, queue_empty]
    rfl

end Scheduler

theorem Memory.slot?_of_ofSize? {n : Int} {m : Memory} (sized : Memory.ofSize? n = .ok m) (a : Int)
    (low : 0 ≤ a) (high : a < m.size) : m.slot? a = some {} := by
  unfold Memory.ofSize? at sized
  split at sized
  · cases sized
  · cases sized
    simp only [Memory.size, Array.size_replicate] at high
    rw [Memory.slot?, if_pos low, Array.getElem?_replicate, if_pos (by omega)]

/-- A machine is made exactly if the quantum is a positive integer and the memory has some slots. -/
theorem Machine.create?_eq_ok_iff {quantum : Setting} {memorySize : Int} {verbose : Bool}
    {delay : Binary64} {storage : Storage} {inputs : List String} {sleep : Sleep} {m : Machine} :
    Machine.create? quantum memorySize verbose delay storage inputs sleep = .ok m ↔
      ∃ q memory, quantum.integer? = some q ∧ 0 < q ∧ Memory.ofSize? memorySize = .ok memory ∧
        m = { quantum := q, verbose, delay, sleep, memory, storage, inputs } := by
  unfold Machine.create?
  constructor
  · intro made
    split at made
    · cases made
    · rename_i q given
      split at made
      · cases made
      · split at made
        · cases made
        · rename_i positive _ memory sized
          exact ⟨q, memory, given, Int.not_le.1 positive, sized, (Except.ok.inj made).symm⟩
  · rintro ⟨q, memory, given, positive, sized, rfl⟩
    simp only [given, if_neg (Int.not_le.2 positive), sized]

/-- A machine that was just made is sound, and has no processes, no time behind it and nothing
measured. -/
theorem Sound.create {quantum : Setting} {memorySize : Int} {verbose : Bool} {delay : Binary64}
    {storage : Storage} {inputs : List String} {sleep : Sleep} {m : Machine}
    (made : Machine.create? quantum memorySize verbose delay storage inputs sleep = .ok m) :
    Sound [] m ∧ m.current = none ∧ m.scheduler = {} ∧ m.clock = {} ∧ m.metrics = {} := by
  obtain ⟨q, memory, -, positive, sized, rfl⟩ := Machine.create?_eq_ok_iff.1 made
  have unused := Memory.slot?_of_ofSize? sized
  refine ⟨⟨⟨positive, rfl, ?_, rfl, Int.natCast_nonneg _, unused⟩,
    Scheduler.orderly_empty, ?_, nofun⟩, rfl, rfl, rfl, rfl⟩
  · intro key P p hP hp
    cases (Scheduler.process?_empty key).symm.trans hp
  · intro key hk
    rw [Scheduler.queue_empty] at hk
    cases hk

/-- What holds of a machine that was just made and is kept by loading and by every move holds
wherever requests lead. -/
theorem Reachable.invariant_of_made {ps : List Program} {m : Machine}
    {Q : List Program → Machine → Prop} (h : Reachable ps m)
    (create : ∀ m, Sound [] m → m.scheduler = {} → m.clock = {} → m.metrics = {} → Q [] m)
    (load : ∀ ps P m m', Sound ps m → Q ps m → Load P m m' → Q (ps ++ [P]) m')
    (move : ∀ ps m m', Sound ps m → Q ps m → Move m m' → Q ps m') : ∃ s, Kept ps s m ∧ Q ps s := by
  have proper : ∀ {α : Type} (op : Operation α), Proper op → ∀ ps m, (∃ s, Kept ps s m ∧ Q ps s) →
      ∃ s, Kept ps s (after op m) ∧ Q ps s := by
    rintro α op hop ps m ⟨s, kept, holds⟩
    obtain ⟨s', kept', run⟩ := hop ps s m kept
    exact ⟨s', kept', run.invariant (move ps) kept.sound holds⟩
  have quiet : ∀ ps m m', (∃ s, Kept ps s m ∧ Q ps s) → m'.inside = m.inside →
      ∃ s, Kept ps s m' ∧ Q ps s := by
    rintro ps m m' ⟨s, kept, holds⟩ same
    obtain ⟨s', kept', run⟩ := kept.quiet same
    exact ⟨s', kept', run.invariant (move ps) kept.sound holds⟩
  induction h with
  | create made =>
    obtain ⟨h, idle, empty, clock, metrics⟩ := Sound.create made
    exact ⟨_, .clear h (.of_idle idle), create _ h empty clock metrics⟩
  | @load ps lines release time m m' before given admits ih =>
    obtain ⟨m₁, load', same⟩ := Machine.load_of_admits given admits
    obtain ⟨s, kept, holds⟩ := ih
    obtain ⟨s', kept', own⟩ := kept.load load'
    exact quiet _ m₁ _ ⟨s', kept', load _ _ _ _ kept.sound holds own⟩ same
  | @refuse ps lines release fault m m' before refused known ih =>
    obtain rfl := Machine.eq_of_refused refused known
    exact ih
  | step before ih => exact proper _ .step _ _ ih
  | run before limit ih => exact proper _ (.run limit) _ _ ih
  | shutdown before chartFile resultsFile ih =>
    exact proper _ (.of_quiet (Machine.quiet_shutdown _ _)) _ _ ih
  | outside before storage inputs ih => exact quiet _ _ _ ih rfl
  | notice before n ih => exact quiet _ _ _ ih rfl

section

variable {ps : List Program} {m : Machine} {Q : List Program → Machine → Prop}
  (create : ∀ m, Sound [] m → m.scheduler = {} → Q [] m)
  (load : ∀ ps P m m', Sound ps m → Q ps m → Load P m m' → Q (ps ++ [P]) m')
  (move : ∀ ps m m', Sound ps m → Q ps m → Move m m' → Q ps m')

include create load move

theorem Reachable.invariant (h : Reachable ps m) : ∃ s, Kept ps s m ∧ Q ps s :=
  h.invariant_of_made (fun m sound empty _ _ => create m sound empty) load move

/-- What holds at first and is kept by loading and by every move holds wherever the machine gets. -/
theorem Passed.invariant (h : Passed ps m) : ∃ s, Seen ps s m ∧ Q ps s := by
  cases h with
  | reached reachable =>
    obtain ⟨s, kept, holds⟩ := reachable.invariant create load move
    exact ⟨s, kept.seen, holds⟩
  | @within _ before k short =>
    obtain ⟨s, kept, holds⟩ := before.invariant create load move
    obtain ⟨s', seen, run⟩ := kept.beginStep k
    exact ⟨s', seen, run.invariant (move ps) kept.sound holds⟩

end

theorem Reachable.kept {ps : List Program} {m : Machine} (h : Reachable ps m) : ∃ s, Kept ps s m := by
  obtain ⟨s, kept, -⟩ := h.invariant (Q := fun _ _ => True) (fun _ _ _ => trivial)
    (fun _ _ _ _ _ _ _ => trivial) fun _ _ _ _ _ _ => trivial
  exact ⟨s, kept⟩

theorem Reachable.layout {ps : List Program} {m : Machine} (h : Reachable ps m) : Layout ps m := by
  obtain ⟨s, kept⟩ := h.kept
  exact kept.layout

/-- If its pauses are not refused, a machine to which requests lead is sound. -/
theorem Reachable.sound {ps : List Program} {m : Machine} (h : Reachable ps m) (rests : m.Rests) :
    Sound ps m ∧ Settled m := by
  obtain ⟨s, kept⟩ := h.kept
  exact ⟨kept.seen.eq_of_rests rests ▸ kept.sound, kept.settled_of_rests rests⟩

/-- It is sound while its processor is idle, too. -/
theorem Reachable.sound_of_idle {ps : List Program} {m : Machine} (h : Reachable ps m)
    (idle : m.current = none) : Sound ps m ∧ Settled m := by
  obtain ⟨s, kept⟩ := h.kept
  exact ⟨kept.seen.eq_of_idle idle ▸ kept.sound, .of_idle idle⟩

/-- What holds at first and is kept by loading and by every move of a machine whose pauses are not refused
holds wherever such a machine gets. -/
theorem Passed.invariant_of_rests {ps : List Program} {m : Machine} {Q : List Program → Machine → Prop}
    (h : Passed ps m) (rests : m.Rests) (create : ∀ m, Sound [] m → m.scheduler = {} → Q [] m)
    (load : ∀ ps P m m', Sound ps m → Q ps m → Load P m m' → Q (ps ++ [P]) m')
    (move : ∀ ps m m', Sound ps m → m.Rests → Q ps m → Move m m' → Q ps m') : Sound ps m ∧ Q ps m := by
  obtain ⟨s, seen, holds⟩ := h.invariant (Q := fun ps m => m.Rests → Q ps m)
    (fun m sound empty _ => create m sound empty)
    (fun ps P m m' sound holds loads rests =>
      load ps P m m' sound (holds (loads.rests.1 rests)) loads)
    fun ps m m' sound holds moves rests =>
      move ps m m' sound (moves.rests.1 rests) (holds (moves.rests.1 rests)) moves
  cases seen.eq_of_rests rests
  exact ⟨seen.sound, holds rests⟩

theorem Reachable.rests_step {ps : List Program} {m : Machine} (h : Reachable ps m) :
    (after Machine.step m).Rests ↔ m.Rests := by
  obtain ⟨s, kept⟩ := h.kept
  exact Proper.step.rests kept

theorem Reachable.rests_beginStep {ps : List Program} {m : Machine} (h : Reachable ps m) {k : Nat} :
    (after (Machine.beginStep k) m).Rests ↔ m.Rests := by
  obtain ⟨s, kept⟩ := h.kept
  obtain ⟨s', seen, moves⟩ := kept.beginStep k
  exact (seen.mirrors.rests.trans moves.rests).trans kept.mirrors.rests.symm

/-- Whether a program is loaded or refused, the machine is one to which requests lead. -/
theorem Reachable.createProcess {ps : List Program} {m : Machine} (h : Reachable ps m)
    (lines : List String) (release : Setting) :
    ∃ ps', Reachable ps' (after (Machine.createProcess lines release) m) := by
  rcases m.createProcess_cases lines release with
    ⟨time, m₁, n, given, -, result⟩ | ⟨fault, known, refused⟩
  · by_cases short : Integer.isWritable time
    · rw [if_pos short] at result
      rw [after_of_ok result]
      exact ⟨_, h.load given (.inl ⟨_, result⟩)⟩
    · rw [if_neg short] at result
      rw [after_of_error result]
      exact ⟨_, h.load given (.inr result)⟩
  · rw [after_of_error refused]
    exact ⟨ps, h.refuse refused known⟩

theorem Passed.seen {ps : List Program} {m : Machine} (h : Passed ps m) : ∃ s, Seen ps s m := by
  obtain ⟨s, seen, -⟩ := h.invariant (Q := fun _ _ => True) (fun _ _ _ => trivial)
    (fun _ _ _ _ _ _ _ => trivial) fun _ _ _ _ _ _ => trivial
  exact ⟨s, seen⟩

theorem Passed.layout {ps : List Program} {m : Machine} (h : Passed ps m) : Layout ps m := by
  obtain ⟨s, seen⟩ := h.seen
  exact seen.layout

/-- If its pauses are not refused, a machine is sound wherever it gets. -/
theorem Passed.sound {ps : List Program} {m : Machine} (h : Passed ps m) (rests : m.Rests) :
    Sound ps m := by
  obtain ⟨s, seen⟩ := h.seen
  exact seen.eq_of_rests rests ▸ seen.sound

/-- It is sound while the process that has the processor is running, too. -/
theorem Passed.sound_of_runs {ps : List Program} {m : Machine} {key : Int} (h : Passed ps m)
    (runs : m.Runs key) : Sound ps m := by
  obtain ⟨s, seen⟩ := h.seen
  exact seen.eq_of_runs runs ▸ seen.sound

/-- So it is while any process is running. -/
theorem Passed.sound_of_running {ps : List Program} {m : Machine} {key : Int} {p : ControlBlock}
    (h : Passed ps m) (known : m.scheduler.process? key = some p) (runs : p.state = .running) :
    Sound ps m := by
  obtain ⟨s, seen⟩ := h.seen
  exact seen.eq_of_running known runs ▸ seen.sound

/-- Every process goes by its number. -/
theorem Passed.pidOf {ps : List Program} {m : Machine} {key : Int} {p : ControlBlock}
    (h : Passed ps m) (known : m.scheduler.process? key = some p) : m.scheduler.pidOf key = key := by
  obtain ⟨s, seen⟩ := h.seen
  have known' : s.scheduler.process? key = some p := (seen.mirrors.process? key).symm.trans known
  exact (seen.mirrors.pidOf key).trans (seen.sound.orderly.pidOf known')

/-! ### Getting there -/

/-- A machine without processes, with a quantum and a number of slots. -/
def Machine.fresh (quantum : Int) (size : Nat) : Machine :=
  { quantum, memory := ⟨Array.replicate size {}⟩ }

theorem Machine.create?_fresh (quantum : Int) (size : Nat) (positive : 0 < quantum)
    (some_slot : 0 < size) :
    Machine.create? (.whole quantum) size = .ok (Machine.fresh quantum size) := by
  unfold Machine.create? Memory.ofSize?
  dsimp only [Setting.integer?]
  rw [if_neg (by omega), if_neg (by omega)]
  rfl

/-- A machine without processes that is to pause for `10 ^ 400` seconds after every instruction, which the
operating system refuses. -/
def Machine.restless (quantum : Int) (size : Nat) : Machine :=
  { Machine.fresh quantum size with delay := .ofDecimal false 1 400, sleep := .real }

theorem Machine.create?_restless (quantum : Int) (size : Nat) (positive : 0 < quantum)
    (some_slot : 0 < size) : Machine.create? (.whole quantum) size false (.ofDecimal false 1 400) {} []
      .real = .ok (Machine.restless quantum size) := by
  unfold Machine.create? Memory.ofSize?
  dsimp only [Setting.integer?]
  rw [if_neg (by omega), if_neg (by omega)]
  rfl

/-- A program that fits is admitted. -/
theorem Layout.admits {ps : List Program} {m : Machine} (h : Layout ps m) (lines : List String)
    {time : Int} (released : 0 ≤ time) (fits : m.nextAddress + lines.length + 2 < m.memory.size) :
    m.Admits lines (.whole time) (after (Machine.createProcess lines (.whole time)) m) := by
  have low : 0 ≤ m.nextAddress := by
    rw [h.next]
    omega
  obtain ⟨⟨memory, last⟩, loaded⟩ := Memory.load?_eq_ok_iff.2 ⟨low, fits⟩
  unfold Machine.Admits after Machine.createProcess
  dsimp only [Setting.integer?]
  rw [if_neg (by omega), bind_apply, get_apply]
  dsimp only
  rw [loaded]
  dsimp only
  rw [bind_apply, set_apply]
  dsimp only
  rw [bind_apply, announce_apply]
  by_cases short : Integer.isWritable time
  · rw [if_pos short]
    exact .inl ⟨_, rfl⟩
  · rw [if_neg short]
    exact .inr rfl

/-- A program that fits is loaded and told of, unless its release time has too many digits. -/
theorem Layout.createProcess_after {ps : List Program} {m : Machine} (h : Layout ps m)
    (lines : List String) {time : Int} (short : Integer.isWritable time) (released : 0 ≤ time)
    (fits : m.nextAddress + lines.length + 2 < m.memory.size) :
    ∃ key, Machine.createProcess lines (.whole time) m
      = .ok key (after (Machine.createProcess lines (.whole time)) m) := by
  refine (h.admits lines released fits).resolve_right fun untold => ?_
  rcases m.createProcess_cases lines (.whole time) with
    ⟨time', m₁, n, given, -, result⟩ | ⟨fault, known, refused⟩
  · cases given
    rw [result, if_pos short] at untold
    cases untold
  · injection refused.symm.trans untold with same
    exact known same

namespace Reachable

variable {ps : List Program} {m : Machine}

theorem fresh (quantum : Int) (size : Nat) (positive : 0 < quantum) (some_slot : 0 < size) :
    Reachable [] (Machine.fresh quantum size) :=
  .create (Machine.create?_fresh quantum size positive some_slot)

theorem restless (quantum : Int) (size : Nat) (positive : 0 < quantum) (some_slot : 0 < size) :
    Reachable [] (Machine.restless quantum size) :=
  .create (Machine.create?_restless quantum size positive some_slot)

theorem after_createProcess (before : Reachable ps m) (lines : List String) (time : Int)
    (released : 0 ≤ time) (fits : m.nextAddress + lines.length + 2 < m.memory.size) :
    Reachable (ps ++ [⟨lines, time⟩]) (after (Machine.createProcess lines (.whole time)) m) :=
  before.load rfl (before.layout.admits lines released fits)

end Reachable

end RoundRobin
