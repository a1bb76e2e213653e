import RoundRobin.Proofs.Termination

/-!
# Failures

What can end a step or a run before its time. Every access to memory, to a process and to a queue
finds what it looks for in a sound machine, so an instruction is refused only from outside: no input
is left for it, or the path that it opens holds U+0000 (`Refusal`). A turn that ends in a fault
completed some instructions and was refused the next one (`Refused`), unless the pause after its first
instruction was refused. A run that ends in a fault does so in a step, since it never takes more steps
than it may. So nothing but these faults escapes, and a process that was refused an instruction still
faces it (`Reachable.fails_from_outside`).
-/

namespace RoundRobin

open Operation

/-! ### Operations without faults -/

namespace Operation

variable {α β : Type}

/-- An operation that never ends in a fault. -/
def Sure (op : Operation α) : Prop := ∀ m, isOk op m

namespace Sure

theorem get : Sure MonadState.get := fun _ => rfl

theorem bind {x : Operation α} {f : α → Operation β} (hx : Sure x) (hf : ∀ a, Sure (f a)) :
    Sure (x >>= f) := by
  intro m
  obtain ⟨a, result⟩ := ok_after (hx m)
  rw [isOk, bind_apply, result]
  exact hf a _

end Sure

end Operation

namespace Machine

theorem sure_complain (key : Int) (c : Complaint) : Sure (complain key c) := fun _ => rfl

theorem sure_print (key : Int) (name : String) : Sure (print key name) := by
  refine Sure.get.bind fun m => ?_
  split
  · exact fun _ => rfl
  · exact sure_complain _ _

theorem sure_printFromTo (key : Int) (first last : String) : Sure (printFromTo key first last) := by
  refine Sure.get.bind fun m => ?_
  dsimp only
  split
  · exact sure_complain _ _
  · exact sure_complain _ _
  · exact fun _ => rfl

theorem sure_semWait (key : Int) (r : Resource) : Sure (semWait key r) := by
  refine Sure.bind (fun _ => rfl) fun acquired => ?_
  cases acquired <;> exact fun _ => rfl

end Machine

/-! ### Access to files -/

/-- An access to a path that fails for a null character only if there is one in the path. -/
def NullInPath (path : String) {α : Type} (x : Except FileFault α) : Prop :=
  x = .error .nullInPath → Char.ofNat 0 ∈ path.toList

namespace NullInPath

variable {path : String} {α β : Type}

theorem bind {x : Except FileFault α} {f : α → Except FileFault β} (hx : NullInPath path x)
    (hf : ∀ a, NullInPath path (f a)) : NullInPath path (x >>= f) := by
  cases x with
  | ok a => exact hf a
  | error fault =>
    intro failed
    exact hx (congrArg Except.error (Except.error.inj failed))

end NullInPath

namespace Storage

variable (s : Storage) (path : String)

theorem walk_ne_null (place : Place) (steps : List String) :
    s.walk path place steps ≠ .error .nullInPath := by
  induction steps generalizing place with
  | nil => nofun
  | cons step rest ih =>
    unfold walk
    split
    · nofun
    · nofun
    · nofun
    · nofun
    · split_ifs
      · exact ih place
      · exact ih place.parent
      · nofun
      · exact ih (place.child step)

theorem nullInPath_locate (steps : List String) : NullInPath path (s.locate path steps) := by
  intro failed
  by_contra null
  have free : path.toList.contains (Char.ofNat 0) = false := by simpa using null
  rw [locate, free] at failed
  by_cases nothing : path.isEmpty
  · simp [nothing] at failed
  · by_cases long : pathLimit ≤ path.utf8ByteSize
    · simp [nothing, long] at failed
    · simp only [Bool.false_eq_true, if_false, nothing, long] at failed
      exact s.walk_ne_null path _ steps failed

theorem nullInPath_read : NullInPath path (s.read path) := by
  refine (s.nullInPath_locate path _).bind fun place => ?_
  split <;> nofun

theorem nullInPath_firstLine : NullInPath path (s.firstLine path) := by
  refine (s.nullInPath_read path).bind fun content => ?_
  split <;> nofun

theorem nullInPath_readText : NullInPath path (s.readText path) := by
  refine (s.nullInPath_read path).bind fun content => ?_
  split <;> nofun

theorem nullInPath_target : NullInPath path (s.target path) := by
  unfold target
  dsimp only
  split
  · exact (s.nullInPath_locate path _).bind fun _ => nofun
  · refine (s.nullInPath_locate path _).bind fun place => ?_
    split <;> nofun

theorem nullInPath_write (content : Text.Bytes) : NullInPath path (s.write path content) :=
  (s.nullInPath_target path).bind fun _ => nofun

end Storage

/-! ### Instructions that are refused -/

/-- The path that an instruction opens. -/
def Instruction.path? : Instruction → Option String
  | .assign _ (.file path) => some path
  | .writeFile path _ => some path
  | .readFile path _ => some path
  | _ => none

/-- How an instruction is refused from outside: no input is left, which shows when it is asked for, or
the path that it opens holds U+0000. Nothing else happens. -/
inductive Refusal (m : Machine) : Instruction → Fault → Machine → Prop where
  | input {name : String} (nothing : m.inputs = []) :
    Refusal m (.assign name .input) .endOfInput
      (m.record (.prompt ("Please enter a value for " ++ name ++ ": ")))
  | path {i : Instruction} {path : String} (opens : i.path? = some path)
    (null : Char.ofNat 0 ∈ path.toList) : Refusal m i (.file .nullInPath) m

theorem Refusal.inside {m m' : Machine} {i : Instruction} {fault : Fault}
    (r : Refusal m i fault m') : m'.inside = m.inside := by
  cases r <;> rfl

/-- An operation that ends in a fault only as the refusal of an instruction. -/
def Refuses (i : Instruction) {α : Type} (op : Operation α) (m : Machine) : Prop :=
  ∀ fault m', op m = .error fault m' → Refusal m i fault m'

namespace Refuses

variable {i : Instruction} {α : Type} {op : Operation α} {m m' : Machine}

theorem of_ok {a : α} (fine : op m = .ok a m') : Refuses i op m := by
  intro fault m'' failed
  rw [fine] at failed
  cases failed

theorem of_sure (sure : Sure op) : Refuses i op m :=
  fun _ _ failed => absurd failed (ne_error_of_isOk (sure m))

theorem of_error {fault : Fault} (failed : op m = .error fault m') (refusal : Refusal m i fault m') :
    Refuses i op m := by
  intro fault' m'' failed'
  cases failed.symm.trans failed'
  exact refusal

/-- A failed access to a file is reported, unless the path holds U+0000. -/
theorem fileFailed {path : String} (opens : i.path? = some path) {β : Type}
    {x : Except FileFault β} (null : NullInPath path x) {fault : FileFault} (failed : x = .error fault)
    (key : Int) : Refuses i (Machine.fileFailed key fault) m := by
  unfold Machine.fileFailed
  cases fault with
  | nullInPath => exact of_error rfl (.path opens (null failed))
  | _ => exact of_ok rfl

/-- What is refused before its result is looked at is refused. -/
theorem map {β : Type} (h : Refuses i op m) (f : α → β) :
    Refuses i (do let a ← op; return f a : Operation β) m := by
  intro fault m' failed
  rw [bind_apply] at failed
  cases result : op m with
  | ok a m₁ =>
    rw [result] at failed
    cases failed
  | error fault' m₁ =>
    rw [result] at failed
    cases failed
    exact h fault m' result

end Refuses

theorem Layout.refuses_assign {ps : List Program} {m : Machine} {key : Int} {p : ControlBlock}
    (h : Layout ps m) (known : m.scheduler.process? key = some p) (name : String) (source : Source) :
    Refuses (.assign name source) (Machine.assign key name source) m := by
  cases source with
  | literal value =>
    obtain ⟨m', memory, s, run, -⟩ := h.bindName_effect known name value (.literal value)
    exact .of_ok run
  | input =>
    cases left : m.inputs with
    | nil =>
      have failed : Machine.assign key name .input m
          = .error .endOfInput (m.record (.prompt ("Please enter a value for " ++ name ++ ": "))) := by
        rw [Machine.assign, bind_apply, ask_of_nil left]
      exact .of_error failed (.input left)
    | cons answer rest =>
      have asked := ask_of_cons left ("Please enter a value for " ++ name ++ ": ")
      have given : Layout ps { m.record (.prompt ("Please enter a value for " ++ name ++ ": ")) with
        inputs := rest } := h.of_inside rfl
      obtain ⟨m', memory, s, run, -⟩ :=
        given.bindName_effect known name (Text.trimmed answer) .input
      have fine : Machine.assign key name .input m = .ok () m' := by
        rw [Machine.assign, bind_apply, asked]
        exact run
      exact .of_ok fine
  | file path =>
    cases result : m.storage.firstLine path with
    | ok line =>
      obtain ⟨m', memory, s, run, -⟩ := h.bindName_effect known name line (.file path)
      have fine : Machine.assign key name (.file path) m = .ok () m' := by
        rw [Machine.assign, bind_apply, get_apply]
        dsimp only
        rw [result]
        exact run
      exact .of_ok fine
    | error fault =>
      have reported := Refuses.fileFailed (i := .assign name (.file path)) rfl
        (m.storage.nullInPath_firstLine path) result (m := m) key
      intro fault' m' failed
      apply reported
      rw [Machine.assign, bind_apply, get_apply] at failed
      dsimp only at failed
      rwa [result] at failed

namespace Sound

variable {ps : List Program} {m : Machine} {key : Int} {p : ControlBlock}

theorem refuses_writeFile (known : m.scheduler.process? key = some p) (path name : String) :
    Refuses (.writeFile path name) (Machine.writeFile key path name) m := by
  intro fault m' failed
  rw [Machine.writeFile, bind_apply, process_apply known] at failed
  dsimp only at failed
  rw [bind_apply, get_apply] at failed
  dsimp only at failed
  cases result : m.storage.write path (Text.encode (Machine.textOf m.memory p name).toList) with
  | ok storage =>
    rw [result] at failed
    cases failed
  | error fault' =>
    rw [result] at failed
    exact Refuses.fileFailed rfl (m.storage.nullInPath_write path _) result key _ _ failed

theorem refuses_readFile (m : Machine) (key : Int) (path name : String) :
    Refuses (.readFile path name) (Machine.readFile key path name) m := by
  intro fault m' failed
  unfold Machine.readFile at failed
  by_cases reserved : Slot.isReservedName name
  · rw [if_pos reserved] at failed
    cases failed
  · rw [if_neg reserved, bind_apply, get_apply] at failed
    dsimp only at failed
    cases result : m.storage.readText path with
    | error fault' =>
      rw [result] at failed
      exact Refuses.fileFailed rfl (m.storage.nullInPath_readText path) result key _ _ failed
    | ok text =>
      rw [result] at failed
      dsimp only at failed
      cases words : Text.words text with
      | nil =>
        rw [words] at failed
        cases failed
      | cons word rest =>
        rw [words] at failed
        dsimp only at failed
        cases found : m.memory.addressOf name with
        | none =>
          rw [found] at failed
          cases failed
        | some a =>
          obtain ⟨memory, written⟩ :=
            Memory.write?_eq_ok_of_addressOf found ⟨name, String.ofList word⟩
          rw [found] at failed
          simp only [writeSlot, written] at failed
          cases failed

/-- An instruction ends in a fault only from outside. -/
theorem refuses_execute (h : Sound ps m) (known : m.scheduler.process? key = some p)
    (i : Instruction) : Refuses i (Machine.execute key i) m := by
  cases i with
  | semWait r => exact .of_sure (Machine.sure_semWait key r)
  | semSignal r =>
    obtain ⟨m', memory, s, run, -⟩ := h.semSignal_effect key p r
    exact (Refuses.of_ok run).map fun _ => true
  | assign name source => exact (h.layout.refuses_assign known name source).map fun _ => true
  | print name => exact (Refuses.of_sure (Machine.sure_print key name)).map fun _ => true
  | printFromTo first last =>
    exact (Refuses.of_sure (Machine.sure_printFromTo key first last)).map fun _ => true
  | writeFile path name => exact (refuses_writeFile known path name).map fun _ => true
  | readFile path name => exact (refuses_readFile m key path name).map fun _ => true
  | unknown words => exact .of_ok rfl

end Sound

/-! ### Turns that are cut short -/

theorem Machine.announced_inside (m : Machine) (p : ControlBlock) (line : String) :
    (m.announced p line).inside = m.inside := by
  rcases m.announced_cases p line with same | ⟨told, same⟩
  · rw [same]
  · rw [same]
    rfl

/-- The process under a key completes a number of instructions, which leads to a machine where it is
refused the next one. -/
inductive Refused (key : Int) (fault : Fault) (m' : Machine) : Nat → Machine → Machine → Prop where
  | next {p : ControlBlock} {slot : Slot} {i : Instruction} {m : Machine} (facing : Facing m key p i)
    (at_pc : m.memory.instructionSlot? p.pc = some (slot, i))
    (performed : Machine.perform key i (m.announced p slot.value) = .error fault m')
    (refusal : Refusal (m.announced p slot.value) i fault m') : Refused key fault m' 0 m m
  | later {p : ControlBlock} {slot : Slot} {i : Instruction} {k : Nat} {m m₁ m₂ m₃ : Machine}
    (known : m.scheduler.process? key = some p)
    (at_pc : m.memory.instructionSlot? p.pc = some (slot, i))
    (performed : Machine.perform key i (m.announced p slot.value) = .ok true m₂)
    (completion : Completion key p i m m₁) (same : m₂.inside = m₁.inside)
    (rest : Refused key fault m' k m₂ m₃) : Refused key fault m' (k + 1) m m₃

namespace Refused

variable {key : Int} {fault : Fault} {m m₁ m' : Machine} {k : Nat}

/-- What was completed before is done. -/
theorem run (r : Refused key fault m' k m m₁) :
    Machine.runInstructions key k m = .ok () m₁ ∧ Completions key k m m₁ := by
  induction r with
  | next => exact ⟨rfl, .none rfl⟩
  | later known at_pc performed completion same rest ih =>
    refine ⟨?_, .more completion same ih.2⟩
    rw [Machine.runInstructions_next known at_pc, bind_apply, performed]
    exact ih.1

/-- The process faces the instruction that is refused. -/
theorem refusal (r : Refused key fault m' k m m₁) : ∃ p slot i, Facing m₁ key p i ∧
    m₁.memory.instructionSlot? p.pc = some (slot, i) ∧
    Refusal (m₁.announced p slot.value) i fault m' := by
  induction r with
  | next facing at_pc performed refusal => exact ⟨_, _, _, facing, at_pc, refusal⟩
  | later known at_pc performed completion same rest ih => exact ih

end Refused

namespace Sound

variable {ps : List Program} {m m' : Machine} {key : Int} {fault : Fault}

/-- An instruction is refused when it is executed, unless it is the pause after it that is refused. -/
theorem execute_of_perform (h : Sound ps m) {p : ControlBlock} {i : Instruction}
    (facing : Facing m key p i) (failed : Machine.perform key i m = .error fault m') :
    Machine.execute key i m = .error fault m' ∨ fault.isPause ∧ ¬m.Rests := by
  unfold Machine.perform at failed
  rw [bind_apply] at failed
  cases result : Machine.execute key i m with
  | error fault' m₁ =>
    rw [result] at failed
    cases failed
    exact .inl rfl
  | ok running m₁ =>
    have kept := h.rests_execute facing result
    rw [result] at failed
    dsimp only at failed
    rw [bind_apply] at failed
    by_cases rests : m₁.Rests
    · obtain ⟨m₂, counted, -⟩ := Machine.countInstruction_apply rests key
      rw [counted] at failed
      cases running <;> cases failed
    · obtain ⟨fault', pauses, counted⟩ := Machine.countInstruction_of_refused rests key
      rw [counted] at failed
      cases failed
      exact .inr ⟨pauses, mt kept.2 rests⟩

/-- Instructions end in a fault only if one of them is refused, or the pause after the first one. -/
theorem refused_of_runInstructions (h : Sound ps m) (runs : m.Runs key) {n : Nat}
    (failed : Machine.runInstructions key n m = .error fault m') :
    (∃ k m₁, k < n ∧ Refused key fault m' k m m₁) ∨ fault.isPause ∧ ¬m.Rests := by
  induction n generalizing m with
  | zero => cases failed
  | succ n ih =>
    obtain ⟨current, p, known, running⟩ := runs
    cases at_pc : m.memory.instructionSlot? p.pc with
    | none =>
      rw [Machine.runInstructions_end known at_pc] at failed
      cases failed
    | some found =>
      obtain ⟨slot, i⟩ := found
      have shown := m.announced_inside p slot.value
      have facing : Facing m key p i := ⟨current, known, running, by rw [at_pc]; rfl⟩
      have performed := h.performed facing shown
      rw [Machine.runInstructions_next known at_pc, bind_apply] at failed
      cases result : Machine.perform key i (m.announced p slot.value) with
      | error fault' m₁ =>
        rw [result] at failed
        cases failed
        have sound₀ := h.of_inside shown
        have facing₀ := facing.of_inside shown
        rcases sound₀.execute_of_perform facing₀ result with refused | ⟨pauses, restless⟩
        · have refusal := sound₀.refuses_execute facing₀.known i fault m' refused
          exact .inl ⟨0, m, Nat.succ_pos n, .next facing at_pc result refusal⟩
        · exact .inr ⟨pauses, mt (Machine.rests_of_inside shown).2 restless⟩
      | ok running m₁ =>
        rw [result] at failed performed
        cases performed with
        | blocked => cases failed
        | completed rests completion same =>
          rcases ih ((h.complete completion).of_inside same) ((completion.runs h).of_inside same)
            failed with ⟨k, m₂, short, rest⟩ | ⟨-, restless⟩
          · exact .inl ⟨k + 1, m₂, Nat.succ_lt_succ short,
              .later known at_pc result completion same rest⟩
          · exact absurd ((Machine.rests_of_inside same).2 (completion.rests.2 rests)) restless

/-- A step ends in a fault only if an instruction of its turn is refused, or the pause after the first
one. -/
theorem refused_of_step (h : Sound ps m) (settled : Settled m)
    (failed : Machine.step m = .error fault m') : (∃ key m₁ m₂ k m₃,
      Machine.promote m = .ok () m₁ ∧ Promotion m m₁ ∧ Machine.occupy m₁ = .ok () m₂ ∧
      Occupied key m₁ m₂ ∧ k < m.quantum.toNat ∧ Refused key fault m' k m₂ m₃) ∨
        fault.isPause ∧ ¬m.Rests := by
  obtain ⟨m₁, promoted, promotion⟩ := h.promote_works
  have h₁ := h.works promotion.works
  rcases h₁.occupy_cases with ⟨key, m₂, run, occupied⟩ | ⟨run, idle, -⟩
  · have h₂ := h₁.works occupied.works
    have runs := occupied.runs (promotion.settled h settled)
    have quantum : m₂.quantum = m.quantum := occupied.quantum.trans promotion.quantum
    rw [Machine.step_eq promoted run, Machine.proceed_of_busy runs.1, bind_apply] at failed
    rcases h₂.burst_cases runs with ⟨m₃, m₄, m₅, -, burst, -⟩ | ⟨fault', m₃, result, burst, -⟩
    · rw [burst] at failed
      cases failed
    · rw [burst] at failed
      cases failed
      rcases h₂.refused_of_runInstructions runs result with ⟨k, m₄, short, refused⟩ | ⟨pauses, restless⟩
      · exact .inl ⟨key, m₁, m₂, k, m₄, promoted, promotion, run, occupied, quantum ▸ short, refused⟩
      · exact .inr ⟨pauses, mt (fun rests => occupied.rests.2 (promotion.rests.2 rests)) restless⟩
  · rw [Machine.step_eq promoted run, Machine.proceed_of_idle idle] at failed
    cases failed

/-! ### Runs that are cut short -/

/-- A run that may take enough steps ends in a fault only if one of its steps does. -/
theorem step_of_runSteps (h : Sound ps m) (settled : Settled m) {limit : Option Int}
    {left taken : Nat} (enough : limit.elim (m.left ps ≤ left) fun n => n ≤ taken + left)
    (failed : Machine.runSteps limit left taken m = .error fault m') :
    ∃ m₁, Moves m m₁ ∧ Settled m₁ ∧ Machine.step m₁ = .error fault m' := by
  induction left generalizing m taken with
  | zero =>
    rw [Machine.runSteps_eq] at failed
    split_ifs at failed with all stuck reached
    · -- a run is over before the bound is used up
      exfalso
      cases limit with
      | none =>
        have some_left := h.left_pos (not_or.2 ⟨all, stuck⟩)
        exact absurd enough (Nat.not_le.2 some_left)
      | some n =>
        have spent : n ≤ taken := by simpa using enough
        exact reached (by simpa using spent)
  | succ left ih =>
    rw [Machine.runSteps_eq] at failed
    split_ifs at failed with all stuck reached
    dsimp only at failed
    rw [bind_apply] at failed
    cases result : Machine.step m with
    | error fault' m₁ =>
      rw [result] at failed
      cases failed
      exact ⟨m, .refl, settled, result⟩
    | ok ran m₁ =>
      rw [result] at failed
      obtain ⟨moves, -⟩ := h.after_step settled
      rw [after_of_ok result] at moves
      have settled₁ := Settled.of_idle (h.idle_of_step settled result)
      have fewer := (h.step_falls settled (not_or.2 ⟨all, stuck⟩) result).2
      have enough₁ : limit.elim (m₁.left ps ≤ left) fun n => n ≤ (taken + 1 : Nat) + left := by
        cases limit with
        | none =>
          rw [Option.elim_none] at enough ⊢
          omega
        | some n =>
          rw [Option.elim_some] at enough ⊢
          push_cast at enough ⊢
          omega
      obtain ⟨m₂, moves₂, settled₂, raised⟩ := ih (h.moves moves) settled₁ enough₁ failed
      exact ⟨m₂, moves.trans moves₂, settled₂, raised⟩

end Sound

/-- The clock never shows a time before the beginning. -/
theorem Reachable.now_nonneg {ps : List Program} {m : Machine} (h : Reachable ps m) : 0 ≤ m.now := by
  have shown := h.invariant_of_made (Q := fun _ m => 0 ≤ m.now) ?_ ?_ ?_
  · obtain ⟨s, kept, started⟩ := shown
    exact kept.mirrors.now.symm ▸ started
  · intro m _ _ clock _
    rw [Machine.now, clock]
  · rintro ps P m _ _ started ⟨-, -, -⟩
    exact started
  · intro ps m m' sound started move
    cases move with
    | work work => exact Int.le_trans started (sound.advances_of_work work).now
    | idle | linger => exact Int.le_add_one started
    | stall stall =>
      cases stall
      exact Int.le_add_one started

/-- A run that was announced ends in a fault only if one of its steps does. -/
theorem Kept.step_of_run {ps : List Program} {s m m' : Machine} {fault : Fault} (h : Kept ps s m)
    (started : 0 ≤ m.now) (short : Integer.isWritable m.quantum) {limit : Option Int}
    (failed : Machine.run limit m = .error fault m') :
    ∃ s₁ m₁, Kept ps s₁ m₁ ∧ (m₁.Rests ↔ m.Rests) ∧ Machine.step m₁ = .error fault m' := by
  have steps : Machine.runSteps limit (limit.elim (m.stepBound + Machine.patience) Int.toNat) 0
      (m.record (.notice (.started m.quantum))) = .error fault m' := by
    rw [Machine.run_eq short] at failed
    split at failed
    · cases failed
    · rename_i result
      cases failed
      exact result
  cases h with
  | clear sound settled =>
    have told : Sound ps (s.record (.notice (.started s.quantum))) := sound.of_inside rfl
    have enough : limit.elim ((s.record (.notice (.started s.quantum))).left ps
        ≤ limit.elim (s.stepBound + Machine.patience) Int.toNat) fun n =>
          n ≤ (0 : Nat) + (limit.elim (s.stepBound + Machine.patience) Int.toNat : Nat) := by
      cases limit with
      | none => exact Nat.le_add_right_of_le (sound.left_le_stepBound started)
      | some n =>
        rw [Option.elim_some, Option.elim_some]
        omega
    obtain ⟨m₁, moves, settled₁, raised⟩ :=
      told.step_of_runSteps (settled.of_inside rfl) enough steps
    exact ⟨m₁, m₁, .clear (told.moves moves) settled₁, moves.rests, raised⟩
  | @crowded key p r n _ sound stuck same =>
    -- the first step of the run ends in a fault
    have told : (m.record (.notice (.started m.quantum))).inside = (s.crowd r key n).inside := same
    obtain ⟨_, _, _, -, -, -, result, -⟩ := stuck.step sound told
    refine ⟨s, _, .crowded sound stuck told, .rfl, ?_⟩
    rw [Machine.runSteps_eq] at steps
    split_ifs at steps with all dead reached
    cases bound : limit.elim (m.stepBound + Machine.patience) Int.toNat with
    | zero =>
      exfalso
      cases limit with
      | none => exact absurd bound (by rw [Option.elim_none, Machine.patience]; simp)
      | some n =>
        rw [Option.elim_some] at bound
        exact reached (by simp; omega)
    | succ left =>
      rw [bound] at steps
      dsimp only at steps
      rw [bind_apply, result] at steps
      cases steps
      exact result

/-! ### What escapes -/

/-- A fault from outside: the process that has the processor faces an instruction that asks for input,
and none is left, or one that opens a path that holds U+0000. -/
inductive Escapes (m : Machine) : Fault → Prop where
  | input {key : Int} {p : ControlBlock} {name : String} (facing : Facing m key p (.assign name .input))
    (nothing : m.inputs = []) : Escapes m .endOfInput
  | path {key : Int} {p : ControlBlock} {i : Instruction} {path : String} (facing : Facing m key p i)
    (opens : i.path? = some path) (null : Char.ofNat 0 ∈ path.toList) :
    Escapes m (.file .nullInPath)

theorem Sound.escapes_of_step {ps : List Program} {m m' : Machine} {fault : Fault} (h : Sound ps m)
    (settled : Settled m) (failed : Machine.step m = .error fault m') :
    Escapes m' fault ∨ fault.isPause ∧ ¬m.Rests := by
  rcases h.refused_of_step settled failed with ⟨key, m₁, m₂, k, m₃, -, -, -, -, -, refused⟩ | pauses
  · obtain ⟨p, slot, i, facing, -, refusal⟩ := refused.refusal
    have facing' := facing.of_inside (refusal.inside.trans (m₃.announced_inside p slot.value))
    cases refusal with
    | input nothing => exact .inl (.input facing' nothing)
    | path opens null => exact .inl (.path facing' opens null)
  · exact .inr pauses

theorem Kept.escapes_of_step {ps : List Program} {s m m' : Machine} {fault : Fault} (h : Kept ps s m)
    (failed : Machine.step m = .error fault m') : Escapes m' fault ∨ fault.isPause ∧ ¬m.Rests := by
  cases h with
  | clear sound settled => exact sound.escapes_of_step settled failed
  | crowded sound stuck same =>
    obtain ⟨_, _, _, -, -, pauses, result, -⟩ := stuck.step sound same
    cases failed.symm.trans result
    exact .inr ⟨pauses, (Machine.rests_of_inside same).not.2 stuck.refused⟩

/-- Wherever requests lead, a step or a run, with a limit or without, ends in a fault only from
outside: it asked for input when none was left, or it was to open a path that holds U+0000, or the pause
after an instruction was refused. A run whose quantum has too many digits to be announced ends before it
does anything. -/
theorem Reachable.fails_from_outside {ps : List Program} {m : Machine} (h : Reachable ps m) :
    (∀ fault m', Machine.step m = .error fault m' → Escapes m' fault ∨ fault.isPause ∧ ¬m.Rests) ∧
    ∀ limit fault m', Machine.run limit m = .error fault m' →
      (Escapes m' fault ∨ fault.isPause ∧ ¬m.Rests) ∨
        (¬Integer.isWritable m.quantum ∧ fault = .numeralTooLong ∧ m' = m) := by
  obtain ⟨s, kept⟩ := h.kept
  refine ⟨fun fault m' failed => kept.escapes_of_step failed, fun limit fault m' failed => ?_⟩
  by_cases long : ¬Integer.isWritable m.quantum
  · cases (Machine.run_of_long long limit).symm.trans failed
    exact .inr ⟨long, rfl, rfl⟩
  obtain ⟨s₁, m₁, kept₁, rests, failed₁⟩ := kept.step_of_run h.now_nonneg (not_not.1 long) failed
  exact .inl ((kept₁.escapes_of_step failed₁).imp_right fun pauses =>
    ⟨pauses.1, mt rests.2 pauses.2⟩)

/-- A step ends in a fault because no input is left, a run because of a path that holds U+0000, and a
step because the pause after an instruction is refused. -/
theorem Reachable.fails_from_outside_both :
    (∃ m fault m', Reachable [⟨["print x", "assign x input"], 0⟩] m ∧
      Machine.step m = .error fault m' ∧ Escapes m' fault) ∧
    ∃ m fault m', Reachable [⟨["writeFile a\u0000b y"], 0⟩] m ∧
      Machine.run none m = .error fault m' ∧ Escapes m' fault := by
  have made := Reachable.fresh 2 10 (by decide) (by decide)
  have asks := made.after_createProcess ["print x", "assign x input"] 0 (by decide) (by decide)
  have writes := made.after_createProcess ["writeFile a\u0000b y"] 0 (by decide) (by decide)
  obtain ⟨fault, stepped⟩ := error_after Machine.step (after
    (Machine.createProcess ["print x", "assign x input"] (.whole 0)) (Machine.fresh 2 10))
    (by decide +kernel)
  obtain ⟨fault', ran⟩ := error_after (Machine.run none) (after
    (Machine.createProcess ["writeFile a\u0000b y"] (.whole 0)) (Machine.fresh 2 10))
    (by decide +kernel)
  have asked := (asks.fails_from_outside.1 _ _ stepped).resolve_right fun pauses =>
    pauses.2 (by decide +kernel)
  have written := ((writes.fails_from_outside.2 _ _ _ ran).resolve_right fun told =>
    told.1 (by decide +kernel)).resolve_right fun pauses => pauses.2 (by decide +kernel)
  exact ⟨⟨_, _, _, asks, stepped, asked⟩, _, _, _, writes, ran, written⟩

/-- If the pause after every instruction is refused, a step ends in the fault of the pause. A run whose
quantum has too many digits ends when it is announced. -/
theorem Reachable.fails_from_outside_restless :
    (∃ m fault m', Reachable [⟨["print x"], 0⟩] m ∧ Machine.step m = .error fault m' ∧
      ¬Escapes m' fault) ∧
    ∃ m fault m', Reachable [] m ∧ Machine.run none m = .error fault m' ∧ ¬Escapes m' fault := by
  have made := Reachable.restless 1 10 (by decide) (by decide)
  have loaded := made.after_createProcess ["print x"] 0 (by decide) (by decide)
  obtain ⟨fault, failed⟩ := error_after Machine.step
    (after (Machine.createProcess ["print x"] (.whole 0)) (Machine.restless 1 10)) (by decide +kernel)
  have pause : (match Machine.step
      (after (Machine.createProcess ["print x"] (.whole 0)) (Machine.restless 1 10)) with
    | .error .delayOutOfRange _ => true
    | _ => false) = true := by decide +kernel
  rw [failed] at pause
  refine ⟨⟨_, fault, _, loaded, failed, ?_⟩, _, .numeralTooLong, _,
    .fresh Integer.tooLarge 10 (by decide +kernel) (by decide),
    Machine.run_of_long (by decide +kernel) none, nofun⟩
  intro escapes
  cases escapes <;> cases pause

end RoundRobin
