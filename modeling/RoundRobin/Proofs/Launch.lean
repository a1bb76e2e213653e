import RoundRobin.CommandLine.Session
import RoundRobin.Proofs.Handover
import RoundRobin.Proofs.Termination

/-!
# Before a run

What a session does before it runs its programs. They are read, the settings that the arguments leave
open are asked for, and the programs are loaded one after the other. They all can be loaded exactly if
their release times are natural numbers and the memory has room for all of them
(`loadPrograms_cases`). Up to there nothing happens to the files, and nothing is said but questions,
notices about loading, and why nothing is run (`Preparation`).
-/

namespace RoundRobin

open Operation

/-! ### Loaded programs -/

theorem Measured.load {P : Program} {m m' : Machine} (M : Measured m) (load : Load P m m') :
    Measured m' := by
  obtain ⟨-, -, arrival⟩ := load
  refine ⟨M.started, M.active, M.total, M.drawn, fun key p' known' => ?_⟩
  rw [arrival.process?] at known'
  split at known'
  · cases known'
    exact Int.le_refl 0
  · exact M.counted key p' known'

/-- Programs are loaded and nothing has happened since. Pauses are not refused. -/
structure Staged (ps : List Program) (m : Machine) : Prop where
  sound : Sound ps m
  rests : m.Rests
  idle : m.current = none
  timely : Timely m
  recorded : Recorded m
  measured : Measured m
  punctual : Punctual ps m.scheduler
  charted : Charted ps m

namespace Staged

variable {ps : List Program} {P : Program} {m m' : Machine}

theorem of_inside (S : Staged ps m) (same : m'.inside = m.inside) : Staged ps m' :=
  ⟨S.sound.of_inside same, (Machine.rests_of_inside same).2 S.rests,
    (Machine.current_of_inside same).trans S.idle, S.timely.of_inside same,
    S.recorded.of_inside same, S.measured.of_inside same,
    Machine.scheduler_of_inside same ▸ S.punctual, S.charted.of_inside S.sound same⟩

theorem load (S : Staged ps m) (load : Load P m m') : Staged (ps ++ [P]) m' := by
  have idle : m'.current = none := by
    obtain ⟨-, -, -⟩ := load
    exact S.idle
  exact ⟨S.sound.load load, load.rests.2 S.rests, idle, S.timely.load load, S.recorded.load S.sound load,
    S.measured.load load, S.punctual.load S.sound load, S.charted.load S.sound load⟩

theorem create {quantum : Setting} {memorySize : Int} {verbose : Bool} {delay : Binary64}
    {storage : Storage} {inputs : List String} {sleep : Sleep}
    (made : Machine.create? quantum memorySize verbose delay storage inputs sleep = .ok m)
    (rests : sleep.Accepts delay) : Staged [] m := by
  obtain ⟨sound, idle, empty, clock, metrics⟩ := Sound.create made
  obtain ⟨s, kept, timely, recorded⟩ := (Reachable.create made).timely
  cases kept.seen.eq_of_idle idle
  have charted := Charted.create empty clock metrics
  have measured : Measured m := by
    obtain ⟨q, memory, -, -, -, rfl⟩ := Machine.create?_eq_ok_iff.1 made
    refine ⟨Int.le_refl 0, Int.le_refl 0, Int.le_refl 0, nofun, fun key p known => ?_⟩
    cases (Scheduler.process?_empty key).symm.trans known
  have accepted : m.Rests := by
    obtain ⟨q, memory, -, -, -, rfl⟩ := Machine.create?_eq_ok_iff.1 made
    exact rests
  exact ⟨sound, accepted, idle, timely, recorded, measured, empty ▸ .empty, charted⟩

/-- A program whose release time has few digits can be loaded exactly if its release time is a natural
number and there is room for it behind the others. -/
theorem createProcess_cases (S : Staged ps m) (P : Program) (short : Integer.isWritable P.release) :
    (0 ≤ P.release ∧ Program.extents (ps ++ [P]) ≤ m.memory.size ∧ ∃ key m',
      Machine.createProcess P.lines (.whole P.release) m = .ok key m' ∧ Staged (ps ++ [P]) m' ∧
        m'.memory.size = m.memory.size) ∨
    (P.release < 0 ∨ m.memory.size < Program.extents (ps ++ [P])) ∧ ∃ fault,
      fault ≠ .numeralTooLong ∧
        Machine.createProcess P.lines (.whole P.release) m = .error fault m := by
  have next := S.sound.layout.next
  have extent : Program.extents (ps ++ [P]) = Program.extents ps + (P.lines.length + 3) :=
    Program.extents_append ps [P]
  rcases m.createProcess_cases P.lines (.whole P.release) with
    ⟨time, m₁, n, given, load, created⟩ | ⟨fault, known, refused⟩
  · cases given
    left
    rw [if_pos short] at created
    have staged : Staged (ps ++ [P]) (m₁.record (.notice n)) := (S.load load).of_inside rfl
    obtain ⟨released, loaded, -⟩ := load
    obtain ⟨last, -, high, -⟩ := Memory.load?_eq_ok loaded
    dsimp only at last
    exact ⟨released, by omega, _, _, created, staged, Memory.size_load loaded⟩
  · right
    refine ⟨?_, fault, known, refused⟩
    by_contra! fits
    obtain ⟨key, created⟩ :=
      S.sound.layout.createProcess_after P.lines short fits.1
        (show _ < (m.memory.size : Int) by omega)
    cases refused.symm.trans created

end Staged

namespace CommandLine

/-- The programs with their release times. -/
def scheduled (programs : List (List String × Int)) : List Program :=
  programs.map fun (lines, release) => ⟨lines, release⟩

/-- Programs whose release times have few digits are loaded one after the other if all release times are
natural numbers and there is room for all of them. Else one of them is refused, possibly after others
were loaded. -/
theorem loadPrograms_cases {ps : List Program} {m : Machine} (S : Staged ps m)
    {programs : List (List String × Int)}
    (short : ∀ P ∈ scheduled programs, Integer.isWritable P.release) :
    ((∀ P ∈ scheduled programs, 0 ≤ P.release) ∧
      Program.extents (ps ++ scheduled programs) ≤ m.memory.size ∧ ∃ m',
        loadPrograms programs m = .ok () m' ∧ Staged (ps ++ scheduled programs) m' ∧
          m'.memory.size = m.memory.size) ∨
    ((∃ P ∈ scheduled programs, P.release < 0) ∨
      m.memory.size < Program.extents (ps ++ scheduled programs)) ∧ ∃ fault m',
        fault ≠ .numeralTooLong ∧ loadPrograms programs m = .error fault m' := by
  induction programs generalizing ps m with
  | nil =>
    left
    rw [show scheduled [] = [] from rfl, List.append_nil]
    exact ⟨nofun, Int.ofNat_le.1 S.sound.layout.fits, m, rfl, S, rfl⟩
  | cons program rest ih =>
    obtain ⟨lines, release⟩ := program
    have split : ps ++ scheduled ((lines, release) :: rest)
        = ps ++ [⟨lines, release⟩] ++ scheduled rest := by
      rw [List.append_assoc]
      rfl
    have all : ∀ P, P ∈ scheduled ((lines, release) :: rest) ↔
        P = ⟨lines, release⟩ ∨ P ∈ scheduled rest := fun P => List.mem_cons
    rw [split, loadPrograms, bind_apply]
    obtain ⟨first, others⟩ := List.forall_mem_cons.1 short
    rcases S.createProcess_cases ⟨lines, release⟩ first with
      ⟨released, -, key, m₁, created, S₁, size⟩ | ⟨unfit, fault, known, refused⟩
    · rw [created, ← size]
      rcases ih S₁ others with ⟨later, fits, loaded⟩ | ⟨unfit, failed⟩
      · refine .inl ⟨fun P hP => ?_, fits, loaded⟩
        rcases (all P).1 hP with rfl | hP
        · exact released
        · exact later P hP
      · refine .inr ⟨unfit.imp_left ?_, failed⟩
        rintro ⟨P, hP, negative⟩
        exact ⟨P, (all P).2 (.inr hP), negative⟩
    · rw [refused]
      refine .inr ⟨?_, fault, m, known, rfl⟩
      rcases unfit with negative | excess
      · exact .inl ⟨_, (all _).2 (.inl rfl), negative⟩
      · right
        rw [Program.extents_append]
        omega

/-- The first of some programs that are loaded is loaded, and then the others. -/
theorem load_of_loadPrograms {m m' : Machine} {lines : List String} {release : Int}
    {rest : List (List String × Int)}
    (loaded : loadPrograms ((lines, release) :: rest) m = .ok () m') : ∃ m₁ m₂,
      Load ⟨lines, release⟩ m m₁ ∧ m₂.inside = m₁.inside ∧ loadPrograms rest m₂ = .ok () m' := by
  rw [loadPrograms, bind_apply] at loaded
  cases created : Machine.createProcess lines (.whole release) m with
  | error fault m₁ =>
    rw [created] at loaded
    cases loaded
  | ok key m₂ =>
    rw [created] at loaded
    obtain ⟨m₁, load, same⟩ := Machine.load_of_createProcess rfl created
    exact ⟨m₁, m₂, load, same, loaded⟩

/-- Loading programs leaves the quantum as it is. -/
theorem quantum_loadPrograms {m m' : Machine} {programs : List (List String × Int)}
    (loaded : loadPrograms programs m = .ok () m') : m'.quantum = m.quantum := by
  induction programs generalizing m with
  | nil =>
    cases loaded
    rfl
  | cons program rest ih =>
    obtain ⟨m₁, m₂, load, same, later⟩ := load_of_loadPrograms loaded
    rw [ih later, Machine.quantum_of_inside same, load.quantum]

/-- Loading programs gives each of them a process with its release time and the quantum. -/
theorem processes_loadPrograms {m m' : Machine} {programs : List (List String × Int)}
    (loaded : loadPrograms programs m = .ok () m') :
    m'.scheduler.processes.map (fun p => (p.releaseTime, p.quantum))
      = m.scheduler.processes.map (fun p => (p.releaseTime, p.quantum))
        ++ programs.map fun program => (program.2, m.quantum) := by
  induction programs generalizing m with
  | nil =>
    cases loaded
    exact (List.append_nil _).symm
  | cons program rest ih =>
    obtain ⟨lines, release⟩ := program
    obtain ⟨m₁, m₂, load, same, later⟩ := load_of_loadPrograms loaded
    rw [ih later, Machine.quantum_of_inside same, Machine.scheduler_of_inside same, load.quantum]
    obtain ⟨-, -, arrival⟩ := load
    rw [arrival.processes, List.map_append, List.append_assoc]
    rfl

/-- Loading programs one after the other is a row of requests. -/
theorem unbroken_loadPrograms {ps : List Program} {m m' : Machine} (before : Unbroken ps m)
    {programs : List (List String × Int)}
    (loaded : loadPrograms programs m = .ok () m') :
    Unbroken (ps ++ scheduled programs) m' := by
  induction programs generalizing ps m with
  | nil =>
    cases loaded
    rw [show scheduled [] = [] from rfl, List.append_nil]
    exact before
  | cons program rest ih =>
    obtain ⟨lines, release⟩ := program
    rw [loadPrograms, bind_apply] at loaded
    cases created : Machine.createProcess lines (.whole release) m with
    | error fault m₁ =>
      rw [created] at loaded
      cases loaded
    | ok key m₁ =>
      rw [created] at loaded
      have later := ih (before.load rfl created) loaded
      rw [List.append_assoc] at later
      exact later

/-! ### What happens before a run -/

/-- What happens before a run: settings are asked for and answers rejected, programs are loaded, and
it is said why nothing is run. -/
inductive Preparation : Event → Prop where
  | askRelease (number : Nat) : Preparation (.prompt (releaseQuestion number))
  | askQuantum : Preparation (.prompt quantumQuestion)
  | invalid (answer : String) : Preparation (.notice (.invalidAnswer answer))
  | loaded (pid first last release : Int) :
    Preparation (.notice (.loaded pid first last release))
  | unreadable (fault : FileFault) : Preparation (.notice (.unreadableProgram fault))
  | miscounted (expected given : Nat) : Preparation (.notice (.releaseCount expected given))
  | refused (fault : Fault) : Preparation (.notice (.refused fault))

/-- Nothing has happened to the files, and nothing was said that is not said before a run. -/
def Prepared (storage : Storage) (m : Machine) : Prop :=
  m.storage = storage ∧ ∀ e ∈ m.log.toList, Preparation e

theorem Prepared.record {storage : Storage} {m : Machine} (h : Prepared storage m) {e : Event}
    (preparation : Preparation e) : Prepared storage (m.record e) := by
  refine ⟨h.1, fun e' he' => ?_⟩
  rw [Machine.record, Array.toList_push, List.mem_append, List.mem_singleton] at he'
  rcases he' with old | rfl
  · exact h.2 e' old
  · exact preparation

theorem Prepared.createProcess {storage : Storage} {m : Machine} (h : Prepared storage m)
    (lines : List String) (release : Setting) :
    Prepared storage (after (Machine.createProcess lines release) m) := by
  unfold Machine.createProcess
  cases release.integer? with
  | none => exact h
  | some time =>
    dsimp only
    by_cases negative : time < 0
    · rw [if_pos negative]
      exact h
    · rw [if_neg negative, after_get_bind]
      cases m.memory.load? m.nextAddress lines with
      | error fault => exact h
      | ok result =>
        have placed : ∀ memory scheduler nextAddress,
            Prepared storage { m with memory, scheduler, nextAddress } := fun _ _ _ => h
        refine after_bind (Q := Prepared storage) (placed _ _ _) fun _ _ _ placed' => ?_
        refine after_bind (Q := Prepared storage) ?_ fun _ _ _ told => told
        unfold after
        rw [announce_apply]
        cases Integer.isWritable time
        · exact placed'
        · exact placed'.record (.loaded _ _ _ _)

theorem Prepared.loadPrograms {storage : Storage} {m : Machine} (h : Prepared storage m)
    (programs : List (List String × Int)) : Prepared storage (after (loadPrograms programs) m) := by
  induction programs generalizing m with
  | nil => exact h
  | cons program rest ih =>
    exact after_bind (Q := Prepared storage) (h.createProcess _ _) fun _ _ _ placed => ih placed

theorem preparation_askInteger {message : String} (asked : Preparation (.prompt message))
    (inputs : List String) : ∀ e ∈ (askInteger message inputs).events, Preparation e := by
  induction inputs with
  | nil =>
    intro e he
    rw [List.mem_singleton.1 he]
    exact asked
  | cons answer rest ih =>
    unfold askInteger
    split
    · intro e he
      rw [List.mem_singleton.1 he]
      exact asked
    · intro e he
      rcases List.mem_cons.1 he with rfl | he
      · exact asked
      · rcases List.mem_cons.1 he with rfl | he
        · exact .invalid answer
        · exact ih e he

theorem preparation_askIntegers {messages : List String}
    (asked : ∀ message ∈ messages, Preparation (.prompt message)) (inputs : List String) :
    ∀ e ∈ (askIntegers messages inputs).events, Preparation e := by
  induction messages generalizing inputs with
  | nil => nofun
  | cons message rest ih =>
    have first := preparation_askInteger (asked message List.mem_cons_self) inputs
    unfold askIntegers
    dsimp only
    split
    · exact first
    · intro e he
      rcases List.mem_append.1 he with he | he
      · exact first e he
      · exact ih (fun m hm => asked m (List.mem_cons_of_mem _ hm)) _ e he

/-- Every question that is answered has one answer. -/
theorem length_askIntegers {messages inputs : List String} {ns : List Int}
    (answered : (askIntegers messages inputs).answer = some ns) : ns.length = messages.length := by
  induction messages generalizing inputs ns with
  | nil =>
    cases answered
    rfl
  | cons message rest ih =>
    unfold askIntegers at answered
    dsimp only at answered
    split at answered
    · cases answered
    · obtain ⟨later, given, rfl⟩ := Option.map_eq_some_iff.1 answered
      rw [List.length_cons, List.length_cons, ih given]

/-! ### Reading programs -/

/-- The files at some paths are the given programs. -/
abbrev Reads (storage : Storage) (paths : List String) (programs : List (List String)) : Prop :=
  List.Forall₂ (fun path lines => storage.readLines path = .ok lines) paths programs

theorem readPrograms_cases (storage : Storage) (paths : List String) :
    (∃ programs, readPrograms storage paths = .ok programs ∧ Reads storage paths programs) ∨
      ∃ path ∈ paths, ∃ fault, storage.readLines path = .error fault ∧
        readPrograms storage paths = .error fault := by
  induction paths with
  | nil => exact .inl ⟨[], rfl, .nil⟩
  | cons path rest ih =>
    unfold readPrograms
    cases read : storage.readLines path with
    | error fault => exact .inr ⟨path, List.mem_cons_self, fault, read, rfl⟩
    | ok lines =>
      rcases ih with ⟨programs, later, reads⟩ | ⟨other, named, fault, failed, later⟩
      · rw [later]
        exact .inl ⟨lines :: programs, rfl, .cons read reads⟩
      · rw [later]
        exact .inr ⟨other, List.mem_cons_of_mem _ named, fault, failed, rfl⟩

theorem Reads.unique {storage : Storage} {paths : List String} {programs programs' : List (List String)}
    (reads : Reads storage paths programs) (reads' : Reads storage paths programs') :
    programs = programs' := by
  induction reads generalizing programs' with
  | nil =>
    cases reads'
    rfl
  | cons read _ ih =>
    cases reads' with
    | cons read' later =>
      cases read.symm.trans read'
      rw [ih later]

theorem Reads.path_of_mem {storage : Storage} {paths : List String} {programs : List (List String)}
    (reads : Reads storage paths programs) {lines : List String} (read : lines ∈ programs) :
    ∃ path ∈ paths, storage.readLines path = .ok lines := by
  induction reads with
  | nil => cases read
  | cons first _ ih =>
    rcases List.mem_cons.1 read with rfl | later
    · exact ⟨_, List.mem_cons_self, first⟩
    · obtain ⟨path, named, found⟩ := ih later
      exact ⟨path, List.mem_cons_of_mem _ named, found⟩

theorem Reads.lines_of_mem {storage : Storage} {paths : List String} {programs : List (List String)}
    (reads : Reads storage paths programs) {path : String} (named : path ∈ paths) :
    ∃ lines ∈ programs, storage.readLines path = .ok lines := by
  induction reads with
  | nil => cases named
  | cons first _ ih =>
    rcases List.mem_cons.1 named with rfl | later
    · exact ⟨_, List.mem_cons_self, first⟩
    · obtain ⟨lines, read, found⟩ := ih later
      exact ⟨lines, List.mem_cons_of_mem _ read, found⟩

end CommandLine

end RoundRobin
