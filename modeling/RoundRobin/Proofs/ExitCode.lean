import RoundRobin.Proofs.Acquisition
import RoundRobin.Proofs.Arguments
import RoundRobin.Proofs.Fixtures
import RoundRobin.Proofs.Failure
import RoundRobin.Proofs.Launch
import RoundRobin.Proofs.Solo

/-!
# Exit codes

How a session ends whose arguments are accepted. What can keep its programs from being run is found
before any of them is run (`Unfit`): then the exit code is 1, and nothing has happened but preparations.
Else all programs are loaded (`Launch`), the run comes to its end, and after the hand-over of the
results the exit code tells whether all processes are terminated or the run ended in a deadlock
(`exits`). This leaves out sessions that run out of input or open a path that no file can have,
sessions whose memory size is given without a value, pauses that are refused, and what becomes of the
run or the hand-over if the clock has left the range of the numbers in which they reckon.
-/

namespace RoundRobin

open Operation

namespace Operation

variable {α β : Type} {x : Operation α} {m m' : Machine}

theorem bind_of_ok {a : α} (first : x m = .ok a m') (f : α → Operation β) :
    (x >>= f) m = f a m' := by
  rw [bind_apply, first]

theorem bind_of_error {fault : Fault} (first : x m = .error fault m') (f : α → Operation β) :
    (x >>= f) m = .error fault m' := by
  rw [bind_apply, first]

end Operation

/-! ### The run of loaded programs -/

/-- A run comes to its end at a machine. -/
structure RunsTo (ps : List Program) (m m' : Machine) : Prop where
  ran : Machine.run none m = .ok m'.now m'
  finished : m'.Finished
  sound : Sound ps m'
  timely : Timely m'
  recorded : Recorded m'
  measured : Measured m'
  charted : Charted ps m'
  quantum : m'.quantum = m.quantum

/-- A run of loaded programs comes to its end, unless an instruction is refused from outside. -/
theorem Staged.run_cases {ps : List Program} {m : Machine} (S : Staged ps m)
    (short : Integer.isWritable m.quantum) : (∃ m', RunsTo ps m m') ∨
    ∃ fault m', Machine.run none m = .error fault m' ∧ Sound ps m' ∧ Escapes m' fault := by
  have started : Staged ps (m.record (.notice (.started m.quantum))) := S.of_inside rfl
  obtain ⟨sound, rests, idle, timely, recorded, measured, punctual, charted⟩ := started
  have settled := Settled.of_idle idle
  have few : (m.record (.notice (.started m.quantum))).left ps ≤ m.stepBound + Machine.patience :=
    Nat.le_add_right_of_le (S.sound.left_le_stepBound S.measured.started)
  have ending := sound.runSteps_ends settled (m.stepBound + Machine.patience) 0 few
  have measured' := measured.runSteps sound settled rests none (m.stepBound + Machine.patience) 0
  obtain ⟨s, kept, moves⟩ :=
    Proper.runSteps none (m.stepBound + Machine.patience) 0 ps _ _ (.clear sound settled)
  cases kept.seen.eq_of_rests
    ((Proper.runSteps none (m.stepBound + Machine.patience) 0).rests (.clear sound settled) |>.2 rests)
  have run := Machine.run_eq short none
  rw [Option.elim_none] at run
  cases result : Machine.runSteps none (m.stepBound + Machine.patience) 0
      (m.record (.notice (.started m.quantum))) with
  | ok a m' =>
    rw [result] at ending run
    rw [after_of_ok result] at moves measured'
    have told := moves.invariant (Q := fun m => Timely m ∧ Recorded m)
      (fun _ _ h both move => ⟨both.1.move h move, both.2.move h move⟩) sound ⟨timely, recorded⟩
    cases ending with
    | finished _ _ _ finished _ =>
      exact .inl ⟨m', run, finished, sound.moves moves, told.1, told.2, measured',
        charted.runSteps sound punctual idle result, moves.quantum⟩
  | error fault m' =>
    rw [result] at run
    rw [after_of_error result] at moves
    obtain ⟨m₁, moves₁, settled₁, failed⟩ := sound.step_of_runSteps settled (by exact few) result
    have escapes := (sound.moves moves₁).escapes_of_step settled₁ failed
    exact .inr ⟨fault, m', run, sound.moves moves,
      escapes.resolve_right fun pauses => pauses.2 (moves₁.rests.2 rests)⟩

/-- The instruction that a process faces is that of a line of its program. -/
theorem Sound.line_of_facing {ps : List Program} {m : Machine} {key : Int} {p : ControlBlock}
    {i : Instruction} (h : Sound ps m) (facing : Facing m key p i) :
    ∃ P ∈ ps, ∃ line ∈ P.lines, Instruction.decode line = i := by
  obtain ⟨P, hP, -, next⟩ := h.next?_of_facing facing
  obtain ⟨line, hline, decoded⟩ := List.mem_map.1 (List.mem_of_getElem? next)
  exact ⟨P, Program.mem_of_under hP, line, hline, decoded⟩

theorem Instruction.path?_of_isLocal {i : Instruction} (isLocal : i.isLocal) : i.path? = none := by
  cases i with
  | assign name source =>
    cases source with
    | literal => rfl
    | input | file => cases isLocal
  | writeFile | readFile => cases isLocal
  | _ => rfl

/-- A run of loaded programs that neither ask for input nor use files comes to its end. -/
theorem Staged.run_of_isLocal {ps : List Program} {m : Machine} (S : Staged ps m)
    (short : Integer.isWritable m.quantum)
    (isLocal : ∀ P ∈ ps, ∀ i ∈ P.instructions, i.isLocal) : ∃ m', RunsTo ps m m' := by
  rcases S.run_cases short with ends | ⟨fault, m', failed, sound, escapes⟩
  · exact ends
  · have faced : ∀ {key p i}, Facing m' key p i → i.isLocal := by
      intro key p i facing
      obtain ⟨P, hP, -, next⟩ := sound.next?_of_facing facing
      exact isLocal P (Program.mem_of_under hP) i (List.mem_of_getElem? next)
    cases escapes with
    | input facing => cases faced facing
    | path facing opens => cases (Instruction.path?_of_isLocal (faced facing)).symm.trans opens

/-- Every program takes at least three slots. -/
theorem Program.three_mul_length_le (ps : List Program) : 3 * ps.length ≤ Program.extents ps := by
  induction ps with
  | nil => exact Nat.le_refl 0
  | cons P rest ih =>
    have split : Program.extents (P :: rest) = P.extent + Program.extents rest := List.sum_cons
    rw [split, List.length_cons, Program.extent, Memory.reserved]
    omega

/-- A memory has room for few programs. -/
theorem Staged.few {ps : List Program} {m : Machine} (S : Staged ps m)
    (room : Integer.isWritable m.memory.size) :
    Integer.isWritable ((Binary64.limit : Int) + ps.length) := by
  have fits := Int.ofNat_le.1 S.sound.layout.fits
  have many := Program.three_mul_length_le ps
  have wide : 3 * Binary64.limit ≤ 2 * Integer.tooLarge := by decide +kernel
  rw [Integer.isWritable, decide_eq_true_iff] at room ⊢
  generalize Binary64.limit = limit at *
  generalize Integer.tooLarge = tooLarge at *
  omega

theorem Memory.size_of_ofSize? {size : Int} {memory : Memory}
    (sized : Memory.ofSize? size = .ok memory) : 0 < size ∧ (memory.size : Int) = size := by
  unfold Memory.ofSize? at sized
  split at sized
  · cases sized
  · cases sized
    rw [Memory.size, Array.size_replicate]
    omega

/-- All processes being terminated and a deadlock exclude each other. -/
theorem Sound.not_isDeadlocked {ps : List Program} {m : Machine} (h : Sound ps m)
    (all : m.allTerminated) : ¬m.isDeadlocked := by
  intro stuck
  have blocked := ((Machine.isDeadlocked_iff m).1 stuck).2.2.2
  have length := h.length_queues
  rw [Machine.allTerminated, beq_iff_eq, h.layout.length] at all
  omega

theorem Storage.nullInPath_readLines (s : Storage) (path : String) :
    NullInPath path (s.readLines path) := by
  refine (s.nullInPath_read path).bind fun content => ?_
  split <;> nofun

namespace CommandLine

/-- No path that is opened for the programs of a command line or by them holds U+0000. -/
structure NullFree (o : Options) (storage : Storage) : Prop where
  programs : ∀ path ∈ o.programs, Char.ofNat 0 ∉ path.toList
  opened : ∀ path ∈ o.programs, ∀ lines, storage.readLines path = .ok lines → ∀ line ∈ lines,
    ∀ opened, (Instruction.decode line).path? = some opened → Char.ofNat 0 ∉ opened.toList

theorem NullFree.of_reads {o : Options} {storage : Storage} {programs : List (List String)}
    (reads : Reads storage o.programs programs)
    (named : ∀ path ∈ o.programs, Char.ofNat 0 ∉ path.toList)
    (opened : ∀ lines ∈ programs, ∀ line ∈ lines, ∀ path ∈ (Instruction.decode line).path?,
      Char.ofNat 0 ∉ path.toList) : NullFree o storage := by
  refine ⟨named, fun path hpath lines read line hline path' opens => ?_⟩
  obtain ⟨lines', known, read'⟩ := reads.lines_of_mem hpath
  cases read.symm.trans read'
  exact opened lines known line hline path' opens

/-- The programs of a command line are read, and their release times and the quantum are given or
answered. -/
structure Call (o : Options) (storage : Storage) (inputs : List String)
    (programs : List (List String)) (releases : List Int) (quantum : Setting) : Prop where
  reads : Reads storage o.programs programs
  counted : ∀ times, o.release = some times → times.length = o.programs.length
  released : (settleReleases o programs.length inputs).answer = some releases
  given : (settleQuantum o (settleReleases o programs.length inputs).rest).answer = some quantum

/-- What is asked about so many programs. -/
def said (o : Options) (count : Nat) (inputs : List String) : List Event :=
  (settleReleases o count inputs).events
    ++ (settleQuantum o (settleReleases o count inputs).rest).events

/-- The input that is left after these questions. -/
def unread (o : Options) (count : Nat) (inputs : List String) : List String :=
  (settleQuantum o (settleReleases o count inputs).rest).rest

/-- Why the programs of a command line are not run, with a memory of the given size. -/
inductive Unfit (o : Options) (size : Int) (storage : Storage) (inputs : List String) : Prop where
  | unreadable {path : String} {fault : FileFault} (named : path ∈ o.programs)
    (failed : storage.readLines path = .error fault)
  | miscounted {times : List Int} (given : o.release = some times)
    (differs : times.length ≠ o.programs.length)
  | quantum {programs : List (List String)} {releases : List Int} {quantum : Setting}
    (call : Call o storage inputs programs releases quantum)
    (unusable : ∀ q, quantum.integer? = some q → q ≤ 0)
  | memory (nothing : size ≤ 0)
  | release {programs : List (List String)} {releases : List Int} {quantum : Setting} {time : Int}
    (call : Call o storage inputs programs releases quantum) (asked : time ∈ releases)
    (negative : time < 0)
  | full {programs : List (List String)} (reads : Reads storage o.programs programs)
    (excess : size < ((programs.map fun lines => lines.length + 3).sum : Nat))

/-- The machine on which the programs of a command line are run: they are all loaded. -/
inductive Launch (o : Options) (size : Int) (storage : Storage) (inputs : List String) (sleep : Sleep) :
    Machine → Prop where
  | intro {programs : List (List String)} {releases : List Int} {quantum : Setting}
    {m m' : Machine} (call : Call o storage inputs programs releases quantum)
    (made : Machine.create? quantum size o.verbose o.delay storage
      (unread o programs.length inputs) sleep = .ok m)
    (loaded : loadPrograms (programs.zip releases)
      { m with log := (said o programs.length inputs).toArray } = .ok () m') :
    Launch o size storage inputs sleep m'

namespace Call

variable {o : Options} {storage : Storage} {inputs : List String} {programs : List (List String)}
  {releases : List Int} {quantum : Setting}

theorem length (c : Call o storage inputs programs releases quantum) :
    releases.length = programs.length := by
  have released := c.released
  unfold settleReleases at released
  split at released
  · rename_i times given
    cases released
    rw [c.counted _ given, c.reads.length_eq]
  · rw [length_askIntegers released, List.length_map, List.length_range']

theorem unique (c : Call o storage inputs programs releases quantum)
    {programs' : List (List String)} {releases' : List Int} {quantum' : Setting}
    (c' : Call o storage inputs programs' releases' quantum') :
    releases' = releases ∧ quantum' = quantum := by
  have same := c.reads.unique c'.reads
  subst same
  exact ⟨Option.some.inj (c'.released.symm.trans c.released),
    Option.some.inj (c'.given.symm.trans c.given)⟩

end Call

theorem preparation_said (o : Options) (count : Nat) (inputs : List String) :
    ∀ e ∈ said o count inputs, Preparation e := by
  intro e he
  rcases List.mem_append.1 he with he | he
  · unfold settleReleases at he
    split at he
    · cases he
    · refine preparation_askIntegers (fun message hm => ?_) inputs e he
      obtain ⟨number, -, rfl⟩ := List.mem_map.1 hm
      exact .askRelease number
  · unfold settleQuantum at he
    split at he
    · cases he
    · cases he
    · exact preparation_askInteger .askQuantum _ e he

/-! ### What comes of a session -/

/-- How a session ends whose programs were run. -/
def Ending.ofRun : EStateM.Result Fault Machine Unit → Ending
  | .ok _ m => .finished (if m.allTerminated then 0 else 2)
  | .error fault _ => .failed fault

/-- What comes of a session: it is said why nothing is run, an answer is missing, or the programs are
run and the results handed over. -/
inductive Outcome (o : Options) (size : Int) (storage : Storage) (inputs : List String) (sleep : Sleep) :
    Session → Prop where
  | rejected {s : Session} (unfit : Unfit o size storage inputs) (code : s.ending = .finished 1)
    (untouched : s.storage = storage) (told : ∀ e ∈ s.events.toList, Preparation e) :
    Outcome o size storage inputs sleep s
  | unanswered {s : Session} (missing : ∀ programs releases quantum,
      ¬Call o storage inputs programs releases quantum) (ended : s.ending = .failed .endOfInput) :
    Outcome o size storage inputs sleep s
  | ran {s : Session} {ps : List Program} {m : Machine} (fit : ¬Unfit o size storage inputs)
    (launch : Launch o size storage inputs sleep m) (staged : Staged ps m)
    (known : ∀ P ∈ ps, 0 ≤ P.release ∧ ∃ path ∈ o.programs, storage.readLines path = .ok P.lines)
    (short : Integer.isWritable m.quantum) (room : (m.memory.size : Int) = size)
    (place : m.storage = storage)
    (ended : s.ending = .ofRun (runPrograms o m)) : Outcome o size storage inputs sleep s

/-- The session of an operation that loads programs and one that runs them. -/
def sessionOf (load play : Operation Unit) (m : Machine) : Session :=
  match load.run m with
  | .error .numeralTooLong m => ⟨.failed .numeralTooLong, m.storage, m.log⟩
  | .error fault m => ⟨.finished 1, m.storage, (m.record (.notice (.refused fault))).log⟩
  | .ok _ m =>
    match play.run m with
    | .error fault m => ⟨.failed fault, m.storage, m.log⟩
    | .ok _ m => ⟨.finished (if m.allTerminated then 0 else 2), m.storage, m.log⟩

theorem execute_eq (o : Options) (programs : List (List String × Int)) (m : Machine) :
    execute o programs m = sessionOf (loadPrograms programs) (runPrograms o) m := rfl

section

variable {load play : Operation Unit} {m m' : Machine} {fault : Fault}

theorem sessionOf_refused (failed : load m = .error fault m') (known : fault ≠ .numeralTooLong) :
    sessionOf load play m
      = ⟨.finished 1, m'.storage, (m'.record (.notice (.refused fault))).log⟩ := by
  have loads : load.run m = .error fault m' := failed
  unfold sessionOf
  rw [loads]
  cases fault <;> first | rfl | exact absurd rfl known

theorem ending_of_loaded (loaded : load m = .ok () m') :
    (sessionOf load play m).ending = .ofRun (play m') := by
  have loads : load.run m = .ok () m' := loaded
  have plays : play.run m' = play m' := rfl
  unfold sessionOf
  rw [loads]
  dsimp only
  rw [plays]
  cases play m' <;> rfl

end

namespace Call

variable {o : Options} {size : Int} {storage : Storage} {inputs : List String}
  {programs : List (List String)} {releases : List Int} {quantum : Setting}

/-- If the programs are read and all is answered, the quantum, the memory or the release times can
still be unfit. -/
theorem unfit_iff (c : Call o storage inputs programs releases quantum) :
    Unfit o size storage inputs ↔ (∀ q, quantum.integer? = some q → q ≤ 0) ∨ size ≤ 0 ∨
      (∃ time ∈ releases, time < 0) ∨
        size < ((programs.map fun lines => lines.length + 3).sum : Nat) := by
  constructor
  · intro unfit
    cases unfit with
    | unreadable named failed =>
      obtain ⟨lines, -, read⟩ := c.reads.lines_of_mem named
      cases failed.symm.trans read
    | miscounted given differs => exact absurd (c.counted _ given) differs
    | quantum c' unusable => exact .inl ((c.unique c').2 ▸ unusable)
    | memory nothing => exact .inr (.inl nothing)
    | release c' asked negative =>
      exact .inr (.inr (.inl ⟨_, (c.unique c').1 ▸ asked, negative⟩))
    | full reads excess => exact .inr (.inr (.inr (c.reads.unique reads ▸ excess)))
  · rintro (unusable | nothing | ⟨time, asked, negative⟩ | excess)
    · exact .quantum c unusable
    · exact .memory nothing
    · exact .release c asked negative
    · exact .full c.reads excess

/-- The programs of a call with their release times. -/
theorem scheduled_zip (c : Call o storage inputs programs releases quantum) :
    (scheduled (programs.zip releases)).map Program.lines = programs ∧
      (scheduled (programs.zip releases)).map Program.release = releases := by
  have length := c.length
  unfold scheduled
  rw [List.map_map, List.map_map]
  exact ⟨List.map_fst_zip (Nat.le_of_eq length.symm), List.map_snd_zip (Nat.le_of_eq length)⟩

theorem extents_scheduled (c : Call o storage inputs programs releases quantum) :
    Program.extents (scheduled (programs.zip releases))
      = (programs.map fun lines => lines.length + 3).sum := by
  conv_rhs => rw [← c.scheduled_zip.1, List.map_map]
  rfl

theorem exists_negative_iff (c : Call o storage inputs programs releases quantum) :
    (∃ P ∈ scheduled (programs.zip releases), P.release < 0) ↔ ∃ time ∈ releases, time < 0 := by
  conv_rhs => rw [← c.scheduled_zip.2]
  simp

/-- The release times of the programs of a call can be written. -/
theorem short (c : Call o storage inputs programs releases quantum) (written : o.Written) :
    ∀ P ∈ scheduled (programs.zip releases), Integer.isWritable P.release := by
  intro P hP
  have release := List.mem_map_of_mem (f := Program.release) hP
  rw [c.scheduled_zip.2] at release
  exact isWritable_of_settleReleases written c.released P.release release

/-- The programs of a call on a machine that was made for them are run or refused. -/
theorem execute_outcome (c : Call o storage inputs programs releases quantum) (written : o.Written)
    {sleep : Sleep} (rests : sleep.Accepts o.delay) {m : Machine}
    (made : Machine.create? quantum size o.verbose o.delay storage
      (unread o programs.length inputs) sleep = .ok m) :
    Outcome o size storage inputs sleep (execute o (programs.zip releases)
      { m with log := (said o programs.length inputs).toArray }) := by
  rw [execute_eq]
  have staged : Staged [] { m with log := (said o programs.length inputs).toArray } :=
    (Staged.create made rests).of_inside rfl
  obtain ⟨q, memory, whole, positive, sized, same⟩ := Machine.create?_eq_ok_iff.1 made
  have room : 0 < size ∧ (m.memory.size : Int) = size := by
    rw [same]
    exact Memory.size_of_ofSize? sized
  have prepared : Prepared storage { m with log := (said o programs.length inputs).toArray } :=
    ⟨by rw [same], preparation_said o programs.length inputs⟩
  have loading := prepared.loadPrograms (programs.zip releases)
  have cases := loadPrograms_cases staged (c.short written)
  rw [List.nil_append, c.extents_scheduled, c.exists_negative_iff] at cases
  dsimp only at cases
  rcases cases with ⟨released, fits, m', loaded, staged', kept⟩ | ⟨unfit, fault, m', known, failed⟩
  · rw [after_of_ok loaded] at loading
    have quantum' : m'.quantum = q := by
      have unchanged := quantum_loadPrograms loaded
      rw [unchanged, same]
    have fit : ¬Unfit o size storage inputs := by
      rw [c.unfit_iff]
      rintro (unusable | nothing | negative | excess)
      · exact absurd (unusable q whole) (Int.not_le.2 positive)
      · omega
      · obtain ⟨P, hP, before⟩ := c.exists_negative_iff.2 negative
        exact absurd (released P hP) (Int.not_le.2 before)
      · omega
    refine .ran fit (.intro c made loaded) staged' (fun P hP => ⟨released P hP, ?_⟩) ?_
      (by rw [kept]; exact room.2) loading.1 ?_
    · have lines := List.mem_map_of_mem (f := Program.lines) hP
      rw [c.scheduled_zip.1] at lines
      exact c.reads.path_of_mem lines
    · rw [quantum']
      exact isWritable_of_settleQuantum written c.given whole
    · exact ending_of_loaded loaded
  · rw [after_of_error failed] at loading
    have unfit' : Unfit o size storage inputs := by
      rw [c.unfit_iff]
      rcases unfit with negative | excess
      · exact .inr (.inr (.inl negative))
      · exact .inr (.inr (.inr (by omega)))
    rw [sessionOf_refused failed known]
    exact .rejected unfit' rfl loading.1 (loading.record (.refused fault)).2

theorem configure_eq (c : Call o storage inputs programs releases quantum) (sleep : Sleep) :
    configure o programs storage inputs sleep
      = match Machine.create? quantum (o.memorySize.getD Memory.defaultSize) o.verbose o.delay storage
          (unread o programs.length inputs) sleep with
        | .error fault => ⟨.finished 1, storage,
            (said o programs.length inputs).toArray.push (.notice (.refused fault))⟩
        | .ok m =>
          if o.memorySize.isNone then
            ⟨.failed .noMemorySize, storage, (said o programs.length inputs).toArray⟩
          else execute o (programs.zip releases)
            { m with log := (said o programs.length inputs).toArray } := by
  have released := c.released
  have given := c.given
  unfold configure
  dsimp only
  rw [released]
  dsimp only
  rw [given]
  rfl

theorem configure_outcome (c : Call o storage inputs programs releases quantum) (written : o.Written)
    {sleep : Sleep} (rests : sleep.Accepts o.delay) (sized : o.memorySize = some size) :
    Outcome o size storage inputs sleep (configure o programs storage inputs sleep) := by
  rw [configure_eq c, sized]
  dsimp only [Option.getD_some]
  cases made : Machine.create? quantum size o.verbose o.delay storage
      (unread o programs.length inputs) sleep with
  | ok m =>
    dsimp only
    rw [Option.isNone_some, if_neg Bool.false_ne_true]
    exact c.execute_outcome written rests made
  | error fault =>
    refine .rejected ?_ rfl rfl fun e he => ?_
    · rw [c.unfit_iff]
      by_contra! fit
      obtain ⟨⟨q, whole, positive⟩, some_slot, -⟩ := fit
      have made' : ∃ m, Machine.create? quantum size o.verbose o.delay storage
          (unread o programs.length inputs) sleep = .ok m :=
        ⟨_, Machine.create?_eq_ok_iff.2
          ⟨q, _, whole, positive, if_neg (Int.not_le.2 some_slot), rfl⟩⟩
      obtain ⟨m, made'⟩ := made'
      cases made.symm.trans made'
    · rw [Array.toList_push] at he
      rcases List.mem_append.1 he with he | he
      · exact preparation_said o programs.length inputs e he
      · rw [List.mem_singleton.1 he]
        exact .refused fault

end Call

variable {o : Options} {size : Int} {storage : Storage} {inputs : List String} {sleep : Sleep}

section

variable (written : o.Written) (rests : sleep.Accepts o.delay) (sized : o.memorySize = some size)

include written rests sized

theorem configure_cases {programs : List (List String)} (reads : Reads storage o.programs programs)
    (counted : ∀ times, o.release = some times → times.length = o.programs.length) :
    Outcome o size storage inputs sleep (configure o programs storage inputs sleep) := by
  cases released : (settleReleases o programs.length inputs).answer with
  | none =>
    refine .unanswered (fun _ _ _ call => ?_) ?_
    · have answered := call.released
      rw [← reads.unique call.reads, released] at answered
      cases answered
    · unfold configure
      dsimp only
      rw [released]
  | some releases =>
    cases given : (settleQuantum o (settleReleases o programs.length inputs).rest).answer with
    | none =>
      refine .unanswered (fun _ _ _ call => ?_) ?_
      · have answered := call.given
        rw [← reads.unique call.reads, given] at answered
        cases answered
      · unfold configure
        dsimp only
        rw [released]
        dsimp only
        rw [given]
    | some quantum =>
      have call : Call o storage inputs programs releases quantum :=
        ⟨reads, counted, released, given⟩
      exact call.configure_outcome written rests sized

/-- What comes of a session whose arguments are accepted. -/
theorem start_outcome (clean : ∀ path ∈ o.programs, Char.ofNat 0 ∉ path.toList) :
    Outcome o size storage inputs sleep (start o storage inputs sleep) := by
  unfold start
  rcases readPrograms_cases storage o.programs with
    ⟨programs, read, reads⟩ | ⟨path, named, fault, failed, unread⟩
  · rw [read]
    dsimp only
    cases given : o.release with
    | none => exact configure_cases written rests sized reads (by rw [given]; nofun)
    | some times =>
      dsimp only
      by_cases counted : times.length = programs.length
      · rw [if_pos counted]
        refine configure_cases written rests sized reads fun times' given' => ?_
        cases given.symm.trans given'
        rw [counted, reads.length_eq]
      · rw [if_neg counted]
        refine .rejected (.miscounted given ?_) rfl rfl fun e he => ?_
        · rw [reads.length_eq]
          exact counted
        · rw [List.mem_singleton.1 he]
          exact .miscounted _ _
  · rw [unread]
    have reported : fault.isReported := by
      cases fault with
      | nullInPath => exact absurd (storage.nullInPath_readLines path failed) (clean path named)
      | _ => rfl
    dsimp only
    rw [if_pos reported]
    refine .rejected (.unreadable named failed) rfl rfl fun e he => ?_
    rw [List.mem_singleton.1 he]
    exact .unreadable fault

end

theorem runPrograms_eq (o : Options) : runPrograms o = (do
    let _ ← Machine.run
    Machine.shutdown o.gantt o.csv : Operation Unit) := rfl

section

variable {o : Options} {ps : List Program} {m : Machine} (S : Staged ps m)
  (short : Integer.isWritable m.quantum) (room : Integer.isWritable m.memory.size)
  (released : ∀ P ∈ ps, 0 ≤ P.release)
  (writable : ∀ path, o.csv = some path → path ≠ "" → ∃ place, m.storage.target path = .ok place)

include S short room released writable

/-- A run that came to its end is handed over, unless it took too long. -/
theorem handed_of_runsTo {m' : Machine} (R : RunsTo ps m m') :
    Ending.ofRun (runPrograms o m) = .finished (if m'.allTerminated then 0 else 2) ∨
      Binary64.limit ≤ m'.now ∧ ∃ fault, fault.isTooLarge ∧
        Ending.ofRun (runPrograms o m) = .failed fault := by
  have fixtures := (Machine.fixed_run none).of_ok R.ran
  have writable' : ∀ path, o.csv = some path → path ≠ "" →
      ∃ place, m'.storage.target path = .ok place := by
    intro path named some_path
    obtain ⟨place, found⟩ := writable path named some_path
    exact ⟨place, Storage.target_of_fixtures fixtures found⟩
  rw [runPrograms_eq, bind_of_ok R.ran]
  rcases R.sound.shutdown_cases R.timely R.recorded R.measured R.charted released
      (R.quantum ▸ short) (S.few room) o.gantt writable' with
    ⟨m'', handed⟩ | ⟨late, fault, m'', failed, large⟩
  · have same := (Machine.quiet_shutdown o.gantt o.csv).inside_of_ok handed
    have all : m''.allTerminated = m'.allTerminated := by
      rw [Machine.allTerminated, Machine.terminatedCount, Machine.scheduler_of_inside same]
      rfl
    rw [handed, ← all]
    exact .inl rfl
  · rw [failed]
    exact .inr ⟨late, fault, large, rfl⟩

/-- The run of loaded programs comes to its end and is handed over, unless an answer is missing. The
hand-over fails only after too long a run. -/
theorem ofRun_cases
    (clean : ∀ P ∈ ps, ∀ line ∈ P.lines, ∀ path, (Instruction.decode line).path? = some path →
      Char.ofNat 0 ∉ path.toList) :
    (∃ m', RunsTo ps m m' ∧
      (Ending.ofRun (runPrograms o m) = .finished (if m'.allTerminated then 0 else 2) ∨
        Binary64.limit ≤ m'.now ∧ ∃ fault, fault.isTooLarge ∧
          Ending.ofRun (runPrograms o m) = .failed fault)) ∨
    (∃ m', Machine.run none m = .error .endOfInput m') ∧
      Ending.ofRun (runPrograms o m) = .failed .endOfInput := by
  rcases S.run_cases short with ⟨m', R⟩ | ⟨fault, m', failed, sound, escapes⟩
  · exact .inl ⟨m', R, handed_of_runsTo S short room released writable R⟩
  · right
    rw [runPrograms_eq, bind_of_error failed]
    cases escapes with
    | input => exact ⟨⟨m', failed⟩, rfl⟩
    | path facing opens null =>
      obtain ⟨P, hP, line, hline, rfl⟩ := sound.line_of_facing facing
      exact absurd null (clean P hP line hline _ opens)

end

/-- If the arguments are accepted and give the memory size a value, no answer is missing, no pause is
refused, no file that is opened has U+0000 in its path, and the table of results can be written, then the
exit code is 1 exactly if the programs cannot be run; nothing has happened to the files in this case, and
nothing was said but questions and notices before a run. Else all programs are loaded and run. Unless
their run takes so long that the clock itself cannot be written, it ends when all processes are
terminated, which the exit code 0 tells, or the machine is deadlocked, which the exit code 2 tells, except
that the hand-over may fail if the clock has come to the limit of binary64 numbers. -/
theorem exits {o : Options} {arguments : List String} {storage : Storage} {inputs : List String}
    {sleep : Sleep} {size : Int} (accepted : Options.parse arguments = .ok o)
    (sized : o.memorySize = some size) (rests : sleep.Accepts o.delay)
    (answered : (session arguments storage inputs sleep).ending ≠ .failed .endOfInput)
    (clean : NullFree o storage) (writable : ∀ path, o.csv = some path → path ≠ "" →
      ∃ place, storage.target path = .ok place) :
    ((session arguments storage inputs sleep).ending = .finished 1 ↔ Unfit o size storage inputs) ∧
    (Unfit o size storage inputs → (session arguments storage inputs sleep).storage = storage ∧
      ∀ e ∈ (session arguments storage inputs sleep).events.toList, Preparation e) ∧
    (¬Unfit o size storage inputs → ∃ m m', Launch o size storage inputs sleep m ∧
      m' = after (Machine.run none) m ∧ (Integer.isWritable m'.now →
        Machine.run none m = .ok m'.now m' ∧ (m'.allTerminated ∨ m'.isDeadlocked) ∧
        (((session arguments storage inputs sleep).ending = .finished 0 ↔ m'.allTerminated) ∧
          ((session arguments storage inputs sleep).ending = .finished 2 ↔ m'.isDeadlocked) ∨
        Binary64.limit ≤ m'.now ∧ ∃ fault, fault.isTooLarge ∧
          (session arguments storage inputs sleep).ending = .failed fault))) := by
  have written := Options.written_of_parse accepted
  have outcome : Outcome o size storage inputs sleep (start o storage inputs sleep) :=
    start_outcome written rests sized clean.programs
  have started : session arguments storage inputs sleep = start o storage inputs sleep := by
    rw [session, accepted]
  rw [started] at answered ⊢
  generalize start o storage inputs sleep = s at outcome answered
  cases outcome with
  | rejected unfit code untouched told =>
    refine ⟨⟨fun _ => unfit, fun _ => code⟩, fun _ => ⟨untouched, told⟩, fun fit => absurd unfit fit⟩
  | unanswered missing ended => exact absurd ended answered
  | @ran ps m fit launch staged known short room place ended =>
    have released : ∀ P ∈ ps, 0 ≤ P.release := fun P hP => (known P hP).1
    have clean' : ∀ P ∈ ps, ∀ line ∈ P.lines, ∀ path, (Instruction.decode line).path? = some path →
        Char.ofNat 0 ∉ path.toList := by
      intro P hP line hline path opens
      obtain ⟨file, named, read⟩ := (known P hP).2
      exact clean.opened file named P.lines read line hline path opens
    have few : Integer.isWritable m.memory.size := room ▸ written.memorySize size sized
    rcases ofRun_cases staged short few released (place ▸ writable) clean' with
      ⟨m', R, handed⟩ | ⟨-, missing⟩
    · rw [← ended] at handed
      refine ⟨⟨fun code => ?_, fun unfit => absurd unfit fit⟩, fun unfit => absurd unfit fit,
        fun _ => ⟨m, m', launch, (after_of_ok R.ran).symm, fun _ => ⟨R.ran, R.finished, ?_⟩⟩⟩
      · rcases handed with code' | ⟨-, fault, -, failed⟩
        · rw [code'] at code
          split at code <;> cases code
        · cases failed.symm.trans code
      · rcases handed with code | large
        · refine .inl ?_
          rw [code]
          rcases R.finished with all | stuck
          · have free := R.sound.not_isDeadlocked all
            simp [all, free]
          · have some_left : ¬m'.allTerminated := fun all => R.sound.not_isDeadlocked all stuck
            simp [some_left, stuck]
        · exact .inr large
    · exact absurd (ended.trans missing) answered

/-- A directory with a program of one line and one of two lines. -/
def directory : Storage :=
  ⟨[(["p"], .file (Text.encode "print a".toList)),
    (["q"], .file (Text.encode "assign a input\nprint a".toList))]⟩

/-- A session whose programs are run does not end for want of an answer if no run of them does. -/
theorem answered_of_call {o : Options} {size : Int} {storage : Storage} {inputs : List String}
    {sleep : Sleep} {programs : List (List String)} {releases : List Int} {quantum : Setting}
    (call : Call o storage inputs programs releases quantum) (written : o.Written)
    (rests : sleep.Accepts o.delay) (sized : o.memorySize = some size) (clean : NullFree o storage)
    (writable : ∀ path, o.csv = some path → path ≠ "" → ∃ place, storage.target path = .ok place)
    (runs : ∀ m, Launch o size storage inputs sleep m → ∀ m', Machine.run none m ≠ .error .endOfInput m') :
    (start o storage inputs sleep).ending ≠ .failed .endOfInput := by
  intro ended
  have outcome : Outcome o size storage inputs sleep (start o storage inputs sleep) :=
    start_outcome written rests sized clean.programs
  generalize start o storage inputs sleep = s at outcome ended
  cases outcome with
  | rejected unfit code => cases code.symm.trans ended
  | unanswered missing => exact missing _ _ _ call
  | @ran ps m fit launch staged known short room place ended' =>
    have few : Integer.isWritable m.memory.size := room ▸ written.memorySize size sized
    have clean' : ∀ P ∈ ps, ∀ line ∈ P.lines, ∀ path, (Instruction.decode line).path? = some path →
        Char.ofNat 0 ∉ path.toList := by
      intro P hP line hline path opens
      obtain ⟨file, named, read⟩ := (known P hP).2
      exact clean.opened file named P.lines read line hline path opens
    rcases ofRun_cases staged short few (fun P hP => (known P hP).1) (place ▸ writable) clean' with
      ⟨m', R, handed⟩ | ⟨⟨m', failed⟩, -⟩
    · rw [← ended', ended] at handed
      rcases handed with code | ⟨-, fault, large, failed⟩
      · cases code
      · cases failed
        cases large
    · exact runs m launch m' failed

/-- Once it is computed, the run of programs that were loaded is known. -/
theorem ran_of_loaded {load : Operation Unit} {m m' : Machine} {n : Int}
    (computed : (match load m with
      | .ok _ m₁ => (match Machine.run none m₁ with
        | .ok time m₂ => time == m₂.now && m₂.allTerminated && m₂.now == n
        | .error _ _ => false)
      | .error _ _ => false) = true)
    (loaded : load m = .ok () m') :
    ∃ m₂, Machine.run none m' = .ok m₂.now m₂ ∧ m₂.allTerminated ∧ m₂.now = n := by
  rw [loaded] at computed
  dsimp only at computed
  split at computed
  · rename_i time m₂ ran
    simp only [Bool.and_eq_true, beq_iff_eq] at computed
    obtain ⟨⟨rfl, all⟩, now⟩ := computed
    exact ⟨m₂, ran, all, now⟩
  · cases computed

/-- Two programs are run with settings that are asked for, and the table of results is written. -/
theorem exits_asked : ∃ o m m', Options.parse ["p", "q", "--csv", "t"] = .ok o ∧
    Launch o 60 directory ["0", "one", "1", "2", "x"] .returning m ∧
    Machine.run none m = .ok m'.now m' ∧ m'.allTerminated ∧
    (session ["p", "q", "--csv", "t"] directory ["0", "one", "1", "2", "x"]).ending
      = .finished 0 := by
  have accepted : Options.parse ["p", "q", "--csv", "t"]
      = .ok { programs := ["p", "q"], csv := some "t" } := by decide +kernel
  have call : Call { programs := ["p", "q"], csv := some "t" } directory ["0", "one", "1", "2", "x"]
      [["print a"], ["assign a input", "print a"]] [0, 1] (.whole 2) :=
    ⟨.cons (by decide +kernel) (.cons (by decide +kernel) .nil), nofun, by decide +kernel,
      congrArg (Option.map Setting.whole)
        (show (askInteger quantumQuestion ["2", "x"]).answer = some 2 by decide +kernel)⟩
  have clean := NullFree.of_reads (o := { programs := ["p", "q"], csv := some "t" }) call.reads
    (by decide) (by decide +kernel)
  have writable : ∀ path, (some "t" : Option String) = some path → path ≠ "" →
      ∃ place, directory.target path = .ok place := by
    rintro path ⟨⟩ -
    exact ⟨["t"], by decide +kernel⟩
  have fit : ¬Unfit { programs := ["p", "q"], csv := some "t" } 60 directory
      ["0", "one", "1", "2", "x"] := by
    rw [call.unfit_iff]
    rintro (unusable | nothing | ⟨time, asked, negative⟩ | excess)
    · exact absurd (unusable 2 rfl) (by decide)
    · exact absurd nothing (by decide)
    · revert time
      decide
    · exact absurd excess (by decide)
  have runs : ∀ m, Launch { programs := ["p", "q"], csv := some "t" } 60 directory
      ["0", "one", "1", "2", "x"] .returning m →
      ∃ m', Machine.run none m = .ok m'.now m' ∧ m'.allTerminated ∧ m'.now = 3 := by
    rintro m ⟨call', made, loaded⟩
    cases call.reads.unique call'.reads
    obtain ⟨rfl, rfl⟩ := call.unique call'
    obtain ⟨q, memory, whole, -, sized, rfl⟩ := Machine.create?_eq_ok_iff.1 made
    cases whole
    cases sized
    exact ran_of_loaded (by decide +kernel) loaded
  have answered := answered_of_call call (Options.written_of_parse accepted)
    (Sleep.accepts_returning .zero) rfl clean writable fun m launch m' failed => by
      obtain ⟨m₁, ran, -⟩ := runs m launch
      cases ran.symm.trans failed
  have started : session ["p", "q", "--csv", "t"] directory ["0", "one", "1", "2", "x"]
      = start { programs := ["p", "q"], csv := some "t" } directory ["0", "one", "1", "2", "x"] := by
    rw [session, accepted]
  obtain ⟨m, m', launch, rfl, outcome⟩ := (exits accepted rfl (Sleep.accepts_returning _)
    (started ▸ answered) clean writable).2.2 fit
  obtain ⟨m₁, ran, all, now⟩ := runs m launch
  rw [after_of_ok ran, now] at outcome
  obtain ⟨-, -, ⟨zero, -⟩ | ⟨late, -⟩⟩ := outcome (by decide +kernel)
  · exact ⟨_, m, m₁, accepted, launch, ran, all, zero.2 all⟩
  · exact absurd late (by decide +kernel)

/-- If a chart is wanted and a program with lines is released at `2 ^ 1025` or later, a run that gets
to its end without outside help cannot be handed over. -/
theorem ofRun_late {o : Options} {ps : List Program} {m : Machine} (S : Staged ps m)
    (short : Integer.isWritable m.quantum) (h : Reachable ps m)
    (ordered : ∀ P ∈ ps, P.Ordered Resource.Before)
    (isLocal : ∀ P ∈ ps, ∀ i ∈ P.instructions, i.isLocal)
    {key : Int} {P : Program} (under : Program.under ps key = some P) (some_line : P.lines ≠ [])
    (late : Binary64.unit 1025 ≤ P.release) {file : String} (drawn : o.gantt = some file)
    (named : file ≠ "") : ∃ m' fault, Machine.run none m = .ok m'.now m' ∧ m'.allTerminated ∧
      Ending.ofRun (runPrograms o m) = .failed fault := by
  obtain ⟨m', R⟩ := S.run_of_isLocal short isLocal
  have reached : Reachable ps m' := after_of_ok R.ran ▸ h.run none
  have all := R.finished.resolve_right (Program.Ordered.not_isDeadlocked ordered reached)
  obtain ⟨fault, m'', failed⟩ := R.sound.shutdown_late R.charted R.timely R.recorded R.measured all
    under some_line late named o.csv
  refine ⟨m', fault, R.ran, all, ?_⟩
  rw [runPrograms_eq, bind_of_ok R.ran, drawn, failed]
  rfl

/-- A program is to be released at `2 ^ 1025`, and its chart is to be drawn. -/
def lateOptions : Options where
  programs := ["p"]
  quantum := some (some 1)
  release := some [(Binary64.unit 1025 : Int)]
  gantt := some "g"

/-- A program at `2 ^ 1025` comes to its end, but its chart cannot be drawn. -/
theorem start_late : ∃ m m', Launch lateOptions 60 directory [] .returning m ∧
    Machine.run none m = .ok m'.now m' ∧ m'.allTerminated ∧
    (start lateOptions directory []).ending.exitCode? = none := by
  have call : Call lateOptions directory [] [["print a"]] [(Binary64.unit 1025 : Int)] (.whole 1) := by
    refine ⟨.cons (by decide +kernel) .nil, ?_, rfl, rfl⟩
    rintro times ⟨⟩
    rfl
  have fit : ¬Unfit lateOptions 60 directory [] := by
    rw [call.unfit_iff]
    rintro (unusable | nothing | ⟨time, asked, negative⟩ | excess)
    · exact absurd (unusable 1 rfl) (by decide)
    · exact absurd nothing (by decide)
    · rw [List.mem_singleton.1 asked] at negative
      omega
    · exact absurd excess (by decide)
  have sized : lateOptions.memorySize = some 60 := rfl
  have written : lateOptions.Written := by
    refine ⟨?_, ?_, ?_⟩
    · rintro n ⟨⟩
      decide +kernel
    · rintro times ⟨⟩
      decide +kernel
    · rintro n ⟨⟩
      decide +kernel
  have outcome : Outcome lateOptions 60 directory [] .returning (start lateOptions directory []) :=
    start_outcome written (Sleep.accepts_returning _) sized (by decide)
  generalize start lateOptions directory [] = s at outcome
  cases outcome with
  | rejected unfit => exact absurd unfit fit
  | unanswered missing => exact absurd call (missing _ _ _)
  | @ran _ m _ launch _ _ short _ _ ended =>
    have launched := launch
    cases launched with
    | @intro _ _ _ m₀ _ call' made loaded =>
      cases call.reads.unique call'.reads
      obtain ⟨rfl, rfl⟩ := call.unique call'
      -- nothing is asked, so the machine is loaded as it was made
      have same : { m₀ with log := (said lateOptions 1 []).toArray } = m₀ := by
        obtain ⟨_, _, -, -, -, rfl⟩ := Machine.create?_eq_ok_iff.1 made
        rfl
      have loaded : loadPrograms [(["print a"], (Binary64.unit 1025 : Int))] m₀ = .ok () m :=
        same ▸ loaded
      have unbroken := unbroken_loadPrograms (.create made) loaded
      have staged : Staged [⟨["print a"], Binary64.unit 1025⟩] m := by
        rcases loadPrograms_cases (.create made (Sleep.accepts_returning _)) (call.short written) with
          ⟨-, -, m₁, loaded₁, staged, -⟩ | ⟨-, fault, m₁, -, failed⟩
        · cases loaded.symm.trans loaded₁
          exact staged
        · cases loaded.symm.trans failed
      have under : Program.under [⟨["print a"], Binary64.unit 1025⟩] 1
          = some ⟨["print a"], Binary64.unit 1025⟩ := rfl
      have drawn : lateOptions.gantt = some "g" := rfl
      obtain ⟨m', fault, ran, all, failed⟩ := ofRun_late staged short unbroken.reachable
        (by decide +kernel) (by decide +kernel) under (by decide) (Int.le_refl _) drawn (by decide)
      refine ⟨m, m', launch, ran, all, ?_⟩
      rw [ended, failed]
      rfl

/-- With a quantum that is given without a value, nothing is run, though it is not a number below one.
With a memory size that is given without a value, or a program that comes too late for its chart, a
session ends without an exit code. -/
theorem exits_unvalued :
    (∃ o, Options.parse ["p", "--quantum=--", "--release", "0"] = .ok o ∧ o.memorySize = some 60 ∧
      Call o directory [] [["print a"]] [0] (.sequence []) ∧ (Setting.sequence []).integer? = none ∧
      (session ["p", "--quantum=--", "--release", "0"] directory []).ending.exitCode? = some 1) ∧
    (session ["p", "--quantum", "1", "--release", "0", "--memory-size=--"] directory
      []).ending.exitCode? = none ∧
    ∃ m m', Launch lateOptions 60 directory [] .returning m ∧ Machine.run none m = .ok m'.now m' ∧
      m'.allTerminated ∧ (start lateOptions directory []).ending.exitCode? = none := by
  refine ⟨⟨{ programs := ["p"], quantum := some none, release := some [0] }, by decide +kernel, rfl,
    ⟨.cons (by decide +kernel) .nil, ?_, rfl, rfl⟩, rfl, by decide +kernel⟩, by decide +kernel,
    start_late⟩
  rintro times ⟨⟩
  rfl

end CommandLine

end RoundRobin
