import RoundRobin.Proofs.Agreement
import RoundRobin.Proofs.Exclusion
import RoundRobin.Proofs.Requests

/-!
# Seclusion

Programs that have nothing to do with each other run as if each were alone, unless the pauses of the
machine are refused (`Passed.undisturbed`).
Wherever the machine gets, a process has bound and printed exactly what its program would after
the lines that the process has behind it (`Secluded`), and these lines alone tell it. Each
instruction keeps this, since the names that it mentions stand for the same in the shared memory and
in the program on its own, and nothing else that a step does shows in the scene.
-/

namespace RoundRobin

open Operation

namespace Program

/-- The instructions that the process under a key has behind it. -/
def progress (ps : List Program) (s : Scheduler) (key : Int) : List Instruction :=
  ((s.position? key).map (behind ps)).getD []

variable {ps : List Program} {s s' : Scheduler} {key : Int} {x : Int × Nat}

theorem progress_eq (h : s.position? key = some x) : progress ps s key = behind ps x := by
  rw [progress, h]
  rfl

/-- What the program of the process under a key does on its own up to where the process stands. -/
def soloAt (ps : List Program) (s : Scheduler) (key : Int) : Solo := Solo.run (progress ps s key)

theorem soloAt_eq (h : s.position? key = some x) : soloAt ps s key = Solo.run (behind ps x) := by
  rw [soloAt, progress_eq h]

theorem soloAt_of_nobody (nobody : s.process? key = none) : soloAt ps s key = {} := by
  rw [soloAt, progress, Scheduler.position?, nobody]
  rfl

/-- What is behind a process depends on nothing but its position. -/
theorem soloAt_of_position {k : Int} (same : s'.position? k = s.position? k) :
    soloAt ps s' k = soloAt ps s k := by
  rw [soloAt, progress, same]
  rfl

theorem soloAt_of_positions (same : s'.positions = s.positions) : soloAt ps s' = soloAt ps s :=
  funext fun key => soloAt_of_position (Scheduler.position?_eq same key)

/-- What a process has behind it is part of its program. -/
theorem mem_code_of_mem_progress {m : Machine} (h : Sound ps m) {i : Instruction}
    (hi : i ∈ progress ps m.scheduler key) : ∃ P, under ps key = some P ∧ i ∈ P.instructions := by
  rw [progress, Scheduler.position?] at hi
  cases known : m.scheduler.process? key with
  | none =>
    rw [known] at hi
    cases hi
  | some p =>
    rw [known, Option.map_some, Option.map_some, h.position_eq known] at hi
    obtain ⟨P, hP, -⟩ := h.layout.lookup known
    rw [Option.getD_some, behind, code_eq hP] at hi
    exact ⟨P, hP, List.mem_of_mem_take hi⟩

end Program

/-- Every process has bound and printed what its program would on its own after the instructions
that the process has behind it. -/
def Secluded (ps : List Program) (m : Machine) : Prop :=
  Agrees m (Program.soloAt ps m.scheduler)

namespace Secluded

variable {ps : List Program} {m m' : Machine} {key : Int} {p : ControlBlock} {i : Instruction}

theorem of_scene (h : Secluded ps m) (same : m'.scene = m.scene) : Secluded ps m' := by
  have places : m'.scheduler.places = m.scheduler.places := congrArg Scene.places same
  have length := congrArg List.length places
  rw [Scheduler.places, Scheduler.places, List.length_map, List.length_map] at length
  have positions := Scheduler.positions_of_place length fun _ _ =>
    Scheduler.place_of_places places
  rw [Secluded, Program.soloAt_of_positions positions]
  exact Agrees.of_scene h same

theorem after_still {α : Type} {op : Operation α} (h : Secluded ps m) (still : Still op) :
    Secluded ps (after op m) :=
  h.of_scene (still m)

/-! ### One instruction -/

/-- The names that the next instruction mentions stand for the same in memory and in its program on
its own. -/
theorem find_eq (h : Secluded ps m) (sound : Sound ps m) (detached : Detached ps)
    (facing : Facing m key p i) {name : String} (mentions : name ∈ i.mentioned) :
    m.memory.find name = (Program.soloAt ps m.scheduler key).find name := by
  obtain ⟨P, hP, -, standing⟩ := sound.next?_of_facing facing
  have own : i ∈ P.instructions := List.mem_of_getElem? standing
  obtain ⟨line, rfl⟩ := Memory.decode_of_instructionSlot? facing.instruction
  have named := detached.named P (Program.mem_of_under hP) _ own name mentions
  refine Agrees.find_eq h sound.layout facing.known named
    (Instruction.ne_empty_of_mem_mentioned mentions) fun k ne b hb same => ?_
  obtain ⟨j, hj, target⟩ := Solo.mem_bindings_run hb
  obtain ⟨Q, hQ, foreign⟩ := Program.mem_code_of_mem_progress sound hj
  exact detached.ignores hP hQ ne _ own name mentions j foreign (same ▸ target)

/-- Performing an instruction takes its program one instruction further on its own. -/
theorem takes_perform (h : Secluded ps m) (sound : Sound ps m) (rests : m.Rests)
    (detached : Detached ps) (facing : Facing m key p i) :
    Takes (Program.soloAt ps m.scheduler)
      (Function.update (Program.soloAt ps m.scheduler) key
        ((Program.soloAt ps m.scheduler key).exec i))
      (Machine.perform key i) m := by
  obtain ⟨P, hP, -, standing⟩ := sound.next?_of_facing facing
  have isLocal := detached.isLocal P (Program.mem_of_under hP) i (List.mem_of_getElem? standing)
  exact Agrees.takes_perform (Agrees.takes_execute h sound.layout facing.known isLocal
    fun _ mentions => h.find_eq sound detached facing mentions)
    fun _ _ result => (sound.rests_execute facing result).2 rests

/-- A completed instruction is behind its process. -/
theorem of_completion (sound : Sound ps m) {m₁ : Machine} (c : Completion key p i m m₁)
    (shown : m'.inside = m₁.inside) (agrees : Agrees m'
      (Function.update (Program.soloAt ps m.scheduler) key
        ((Program.soloAt ps m.scheduler key).exec i))) : Secluded ps m' := by
  have facing := c.facing
  have next := sound.head?_ahead facing.known
  rw [sound.position_eq facing.known, facing.instruction] at next
  obtain ⟨-, -, -, -, -, others⟩ := c.effect
  rw [Secluded, Machine.scheduler_of_inside shown]
  intro k
  have alone := agrees k
  by_cases same : k = key
  · subst same
    rwa [Function.update_self, Program.soloAt_eq (sound.position?_eq facing.known),
      ← Solo.run_concat, ← Program.behind_succ next,
      ← Program.soloAt_eq (sound.position?_of_completion c)] at alone
  · rwa [Function.update_of_ne same, ← Program.soloAt_of_position (others k same)] at alone

/-- An instruction that blocks its process is not behind it. -/
theorem of_blocking {m₁ : Machine} {r : Resource} (b : Blocking key p r m m₁)
    (shown : m'.inside = m₁.inside) (agrees : Agrees m'
      (Function.update (Program.soloAt ps m.scheduler) key
        ((Program.soloAt ps m.scheduler key).exec (.semWait r)))) : Secluded ps m' := by
  rw [Secluded, Machine.scheduler_of_inside shown,
    Program.soloAt_of_positions b.alike.positions]
  -- a program on its own does not wait
  rwa [show (Program.soloAt ps m.scheduler key).exec (.semWait r)
    = Program.soloAt ps m.scheduler key from rfl, Function.update_eq_self] at agrees

theorem perform (h : Secluded ps m) (sound : Sound ps m) (rests : m.Rests)
    (detached : Detached ps) (facing : Facing m key p i) :
    Secluded ps (after (Machine.perform key i) m) := by
  have takes := h.takes_perform sound rests detached facing
  have performed := sound.performed facing rfl
  unfold Takes at takes
  unfold after
  cases result : Machine.perform key i m with
  | error fault m' =>
    rw [result] at takes performed
    cases performed with
    | fault same =>
      rw [Secluded, Machine.scheduler_of_inside same]
      exact takes
    | hindered _ hindered => exact absurd rests hindered.refused
  | ok running m' =>
    rw [result] at takes performed
    cases performed with
    | completed _ completion same => exact of_completion sound completion same takes
    | @blocked r m₁ _ _ blocking same =>
      have waits : some i = some (.semWait r) := by
        obtain ⟨facing', -, -⟩ := blocking
        exact facing.instruction.symm.trans facing'.instruction
      cases waits
      exact of_blocking blocking same takes

/-! ### A whole step -/

/-- What a machine shows between two instructions is nothing to the programs. -/
theorem of_shown (h : Secluded ps m) {m₀ : Machine}
    (shown : m₀ = m ∨ ∃ told, m₀ = m.record (.notice told)) : Secluded ps m₀ := by
  rcases shown with rfl | ⟨told, rfl⟩
  · exact h
  · exact h.after_still (Still.say told)

theorem runInstructions (h : Secluded ps m) (sound : Sound ps m) (rests : m.Rests)
    (detached : Detached ps) (runs : m.Runs key) (n : Nat) :
    Secluded ps (after (Machine.runInstructions key n) m) := by
  induction n generalizing m with
  | zero => exact h
  | succ n ih =>
    obtain ⟨current, p, known, running⟩ := runs
    cases at_pc : m.memory.instructionSlot? p.pc with
    | none =>
      rw [after_of_ok (Machine.runInstructions_end known at_pc n)]
      exact h
    | some slot =>
      obtain ⟨slot, i⟩ := slot
      obtain ⟨m₀, shown, run⟩ := Machine.runInstructions_succ known at_pc
      have same : m₀.inside = m.inside := by rcases shown with rfl | ⟨told, rfl⟩ <;> rfl
      have facing : Facing m key p i := ⟨current, known, running, by rw [at_pc]; rfl⟩
      have facing₀ := facing.of_inside same
      have sound₀ := sound.of_inside same
      have rests₀ := (Machine.rests_of_inside same).2 rests
      have performed := sound₀.performed facing₀ rfl
      have secluded := (h.of_shown shown).perform sound₀ rests₀ detached facing₀
      unfold after
      rw [run, ← after]
      refine after_bind secluded fun running m₁ result secluded₁ => ?_
      rw [result] at performed
      cases performed with
      | blocked _ blocking same' => exact secluded₁
      | completed _ completion same' =>
        exact ih secluded₁ ((sound₀.complete completion).of_inside same')
          ((Machine.rests_of_inside same').2 (completion.rests.2 rests₀))
          ((completion.runs sound₀).of_inside same')

theorem burst (h : Secluded ps m) (sound : Sound ps m) (rests : m.Rests) (detached : Detached ps)
    (runs : m.Runs key) : Secluded ps (after Machine.burst m) := by
  obtain ⟨current, p, known, -⟩ := id runs
  unfold Machine.burst
  rw [after_get_bind, current]
  dsimp only
  rw [after_bind_of_ok (process_apply known), after_get_bind]
  refine after_bind (h.runInstructions sound rests detached runs _) fun _ m₁ _ h₁ => ?_
  rw [after_get_bind]
  refine after_bind (h₁.after_still (Still.measure _)) fun _ m₂ _ h₂ => ?_
  exact after_bind (h₂.after_still (Machine.still_leave key)) fun _ m₃ _ h₃ => h₃

/-- The beginning of a step, whatever comes after it. -/
theorem begin_step {α : Type} (h : Secluded ps m) (sound : Sound ps m) (settled : Settled m)
    (rests : m.Rests) {rest : Operation α}
    (turn : ∀ key m₂, Sound ps m₂ → m₂.Rests → Secluded ps m₂ → m₂.Runs key →
      Secluded ps (after rest m₂))
    (idle : ∀ m₂, Secluded ps m₂ → m₂.current = none → Secluded ps (after rest m₂)) :
    Secluded ps (after (do Machine.promote; Machine.occupy; rest) m) := by
  obtain ⟨m₁, promoted, promotion⟩ := sound.promote_works
  have sound₁ := sound.works promotion.works
  have h₁ := h.of_scene (Machine.still_promote.of_ok promoted)
  rw [after_bind_of_ok promoted]
  rcases sound₁.occupy_cases with ⟨key, m₂, run, occupied⟩ | ⟨run, nobody, -⟩
  · rw [after_bind_of_ok run]
    exact turn key m₂ (sound₁.works occupied.works) (occupied.rests.2 (promotion.rests.2 rests))
      (h₁.of_scene (Machine.still_occupy.of_ok run))
      (occupied.runs (promotion.settled sound settled))
  · rw [after_bind_of_ok run]
    exact idle _ h₁ nobody

theorem step (h : Secluded ps m) (sound : Sound ps m) (settled : Settled m) (rests : m.Rests)
    (detached : Detached ps) : Secluded ps (after Machine.step m) := by
  refine h.begin_step sound settled rests (fun key m₂ sound₂ rests₂ h₂ runs => ?_)
    fun m₂ h₂ nobody => ?_
  · rw [Machine.proceed, after_get_bind]
    have busy : m₂.isIdle = false := by rw [Machine.isIdle, runs.1]; rfl
    rw [if_neg (by rw [busy]; decide)]
    exact after_bind (h₂.burst sound₂ rests₂ detached runs) fun _ _ _ h₃ => h₃
  · rw [Machine.proceed, after_get_bind]
    have idle : m₂.isIdle = true := by rw [Machine.isIdle, nobody]; rfl
    rw [if_pos idle]
    refine after_bind (h₂.after_still (Still.tick _)) fun _ m₃ _ h₃ => ?_
    exact after_bind (h₃.after_still (Still.measure _)) fun _ m₄ _ h₄ => h₄

theorem beginStep (h : Secluded ps m) (sound : Sound ps m) (settled : Settled m) (rests : m.Rests)
    (detached : Detached ps) (k : Nat) : Secluded ps (after (Machine.beginStep k) m) := by
  refine h.begin_step sound settled rests (fun key m₂ sound₂ rests₂ h₂ runs => ?_)
    fun m₂ h₂ nobody => ?_
  · rw [after_get_bind, runs.1]
    exact h₂.runInstructions sound₂ rests₂ detached runs k
  · rw [after_get_bind, nobody]
    exact h₂

/-! ### Loading -/

/-- A program that is loaded has nothing behind it, and what the others have behind them stays. -/
theorem soloAt_of_load (sound : Sound ps m) {P : Program} (load : Load P m m') :
    Program.soloAt (ps ++ [P]) m'.scheduler = Program.soloAt ps m.scheduler := by
  obtain ⟨released, loaded, arrival⟩ := load
  funext k
  rw [Program.soloAt, Program.soloAt, Program.progress, Program.progress, Scheduler.position?,
    Scheduler.position?, arrival.process?]
  by_cases new : k = m.scheduler.processes.nextKey
  · rw [if_pos new, new, Scheduler.process?_nextKey]
    simp [Program.behind, ControlBlock.position, ControlBlock.offset, ControlBlock.create]
  · rw [if_neg new]
    cases known : m.scheduler.process? k with
    | none => rfl
    | some p =>
      have code := sound.code_append_of_mem P (Scheduler.position_mem_positions known)
      rw [Option.map_some, Option.map_some, Option.map_some, Program.behind, code,
        ← Program.behind]

theorem load (h : Secluded ps m) (sound : Sound ps m) {P : Program} (load : Load P m m')
    (outputs : m'.outputs = m.outputs) : Secluded (ps ++ [P]) m' := by
  obtain ⟨reserves, printed⟩ := agrees_iff.1 h
  have nothing : Program.soloAt ps m.scheduler m.scheduler.processes.nextKey = {} :=
    Program.soloAt_of_nobody (Scheduler.process?_nextKey _)
  rw [Secluded, soloAt_of_load sound load]
  refine agrees_iff.2 ⟨reserves.load sound.layout load (by rw [nothing]), fun k => ?_⟩
  rw [Machine.outputsOf, outputs]
  exact printed k

theorem create (empty : m.scheduler = {}) (silent : m.outputs = []) : Secluded [] m := by
  have nobody : ∀ k, m.scheduler.process? k = none := by
    intro k
    rw [empty]
    exact Scheduler.process?_empty k
  intro k
  rw [Program.soloAt_of_nobody (nobody k)]
  refine ⟨fun p hp => ?_, fun p hp => ?_, ?_⟩
  · cases (nobody k).symm.trans hp
  · cases (nobody k).symm.trans hp
  · rw [Machine.outputsOf, silent]
    rfl

end Secluded

theorem Reachable.secluded {ps : List Program} {m : Machine} (h : Reachable ps m) (rests : m.Rests)
    (detached : Detached ps) : Secluded ps m := by
  refine Reachable.between (R := fun ps m => m.Rests → Detached ps → Secluded ps m) ?_ ?_ ?_ ?_ h
    rests detached
  · intro ps m m' same outputs secluded rests detached
    refine (secluded ((Machine.rests_of_inside same).1 rests) detached).of_scene ?_
    rw [Machine.scene, Machine.memory_of_inside same, Machine.scheduler_of_inside same, outputs]
    rfl
  · intro ps s m kept secluded rests detached
    have rests₀ := (Proper.step.rests kept).1 rests
    cases kept.seen.eq_of_rests rests₀
    exact (secluded rests₀ detached).step kept.sound (kept.settled_of_rests rests₀) rests₀ detached
  · exact fun m _ _ empty silent _ _ => .create empty silent
  · intro ps P s m m' kept secluded load outputs rests detached
    have rests₀ := load.rests.1 rests
    cases kept.seen.eq_of_rests rests₀
    exact (secluded rests₀ detached.of_append).load kept.sound load outputs

theorem Passed.secluded {ps : List Program} {m : Machine} (h : Passed ps m) (rests : m.Rests)
    (detached : Detached ps) : Secluded ps m := by
  cases h with
  | reached reachable => exact reachable.secluded rests detached
  | @within _ before k short =>
    have rests₀ := before.rests_beginStep.1 rests
    obtain ⟨sound, settled⟩ := before.sound rests₀
    exact (before.secluded rests₀ detached).beginStep sound settled rests₀ detached k

/-- A process has done what its program does on its own up to the line at which it stands. -/
theorem Passed.alone {ps : List Program} {m : Machine} (h : Passed ps m) (rests : m.Rests)
    (detached : Detached ps) {key : Int} {P : Program} {p : ControlBlock}
    (hP : Program.under ps key = some P) (known : m.scheduler.process? key = some p) :
    Alone m key (Solo.run (P.done p)) := by
  have agrees := h.secluded rests detached key
  rwa [Program.soloAt_eq ((h.sound rests).position?_eq known), Program.behind,
    Program.code_eq hP] at agrees

/-- Wherever a machine whose pauses are not refused gets, programs that have nothing to do with each
other have done what each does on its own. A process has the variables that come of its lines up to the
one at which it stands, in its reserved slots and none besides, and has printed what these lines print.
Its lines and how many of them are behind it tell all this, whatever the quantum, the release times, the
order in which the programs were loaded and the other programs. -/
theorem Passed.undisturbed {ps : List Program} {m : Machine} (h : Passed ps m) (rests : m.Rests)
    (detached : Detached ps) {key : Int} {P : Program} {p : ControlBlock}
    (hP : Program.under ps key = some P) (known : m.scheduler.process? key = some p) :
    m.memory.behind p = P.instructions.take p.offset ∧
      Alone m key (Solo.run (m.memory.behind p)) ∧
      ∀ ps' m' key' P' p', Passed ps' m' → m'.Rests → Detached ps' →
        Program.under ps' key' = some P' → m'.scheduler.process? key' = some p' →
        P'.lines = P.lines → p'.offset = p.offset →
        p'.bound = p.bound ∧
        (∀ j : Nat, j < 3 →
          m'.memory.slot? (p'.firstReserved + j) = m.memory.slot? (p.firstReserved + j)) ∧
        m'.outputsOf key' = m.outputsOf key := by
  have behind := (h.layout.placed key P p hP known).holds.behind_eq
  have alone := h.alone rests detached hP known
  refine ⟨behind, behind ▸ alone, ?_⟩
  intro ps' m' key' P' p' h' rests' detached' hP' known' lines offset
  have alone' := h'.alone rests' detached' hP' known'
  have same : P'.done p' = P.done p := by
    rw [Program.done, Program.instructions, lines, offset]
    rfl
  rw [same] at alone'
  refine ⟨(alone'.bound p' known').trans (alone.bound p known).symm, fun j small => ?_,
    alone'.outputs.trans alone.outputs.symm⟩
  exact (alone'.slots p' known' j small).trans (alone.slots p known j small).symm

/-- A process that shares a resource with another and is taken from the processor after each
instruction has printed what its program prints alone, released later and not interrupted. -/
theorem Passed.undisturbed_sharing : ∃ m m',
    Passed [⟨["semWait file", "assign x 5", "semSignal file", "print x"], 0⟩,
      ⟨["assign y 1", "semWait file", "assign z 3", "printFromTo y z"], 0⟩] m ∧
    Passed [⟨["assign y 1", "semWait file", "assign z 3", "printFromTo y z"], 2⟩] m' ∧
    m.outputsOf 2 = ["1", "2", "3"] ∧ m'.outputsOf 1 = m.outputsOf 2 := by
  have made := Reachable.fresh 1 14 (by decide) (by decide)
  have first := made.after_createProcess
    ["semWait file", "assign x 5", "semSignal file", "print x"] 0 (by decide) (by decide)
  have second := first.after_createProcess
    ["assign y 1", "semWait file", "assign z 3", "printFromTo y z"] 0 (by decide)
    (by decide +kernel)
  have shared := Passed.reached (second.run none)
  have single := (Reachable.fresh 4 7 (by decide) (by decide)).after_createProcess
    ["assign y 1", "semWait file", "assign z 3", "printFromTo y z"] 2 (by decide) (by decide)
  have alone := Passed.reached (single.run none)
  have apart := shared.undisturbed (by decide +kernel)
    ⟨by decide +kernel, by decide +kernel, by decide +kernel⟩
    (show Program.under _ 2 = some _ from rfl) (Option.some_get (by decide +kernel)).symm
  have same := apart.2.2 _ _ 1 _ _ alone (by decide +kernel)
    ⟨by decide +kernel, by decide +kernel, by decide +kernel⟩ rfl
    (Option.some_get (by decide +kernel)).symm rfl (by decide +kernel)
  exact ⟨_, _, shared, alone, by decide +kernel, same.2.2⟩

/-- If the pause after every instruction is refused, a process has done the line at which it stands: it
has a variable before any of its lines is behind it. -/
theorem Passed.undisturbed_restless : ∃ m p, Passed [⟨["assign x 1"], 0⟩] m ∧
    Detached [⟨["assign x 1"], 0⟩] ∧ m.scheduler.process? 1 = some p ∧
    ¬Alone m 1 (Solo.run (m.memory.behind p)) := by
  have made := Reachable.restless 1 10 (by decide) (by decide)
  have loaded := made.after_createProcess ["assign x 1"] 0 (by decide) (by decide)
  refine ⟨_, _, .reached loaded.step, ⟨by decide +kernel, by decide +kernel, by decide +kernel⟩,
    (Option.some_get (by decide +kernel)).symm, fun alone => ?_⟩
  exact absurd (alone.bound _ (Option.some_get (by decide +kernel)).symm) (by decide +kernel)

end RoundRobin
