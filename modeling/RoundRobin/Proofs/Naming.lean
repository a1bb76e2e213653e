import RoundRobin.Proofs.Register

/-!
# What names stand for

Every machine that is passed has a register, which follows from what was executed on the way to it
(`Booked`, `Passed.exists_booked`), and its reserved slots hold what the register says (`Booked.fits`). So
a name stands for the oldest variable that the process with the smallest number has bound under it, in
every process, but a process writes to a file what its own oldest variable holds. The two are the same
for a process that has bound the name if none with a smaller number has (`Agreeing`).
-/

namespace RoundRobin

open Operation

namespace Register

/-- The register after what was executed from one moment to the next. -/
def next (R : Register) (m m' : Machine) : Register :=
  match Machine.executed? m m' with
  | some e => R.exec e.key m.storage m.inputs e.instruction
  | none => R

/-- The register after a number of instructions of a step, from the one before the step. -/
def during (R : Register) (m : Machine) : Nat → Register
  | 0 => R
  | k + 1 =>
    (R.during m k).next (after (Machine.beginStep k) m) (after (Machine.beginStep (k + 1)) m)

/-- The text that the process under a key means by a name when it writes a file. -/
def textOf (R : Register) (key : Int) (name : String) : String :=
  ((R.oldest? key name).map Binding.value).getD name

end Register

/-- The machines to which requests lead, with the programs that were loaded and the register of what was
bound. Requests other than steps bind nothing. -/
inductive Registered : List Program → Register → Machine → Prop where
  | create {quantum : Setting} {memorySize : Int} {verbose : Bool} {delay : Binary64}
    {storage : Storage} {inputs : List String} {sleep : Sleep} {m : Machine}
    (made : Machine.create? quantum memorySize verbose delay storage inputs sleep = .ok m) :
    Registered [] [] m
  | load {ps : List Program} {R : Register} {lines : List String} {release : Setting} {time : Int}
    {m m' : Machine} (before : Registered ps R m) (given : release.integer? = some time)
    (admits : m.Admits lines release m') : Registered (ps ++ [⟨lines, time⟩]) R m'
  | step {ps : List Program} {R : Register} {m : Machine} (before : Registered ps R m) :
    Registered ps (R.during m m.quantum.toNat) (after Machine.step m)
  | outside {ps : List Program} {R : Register} {m m' : Machine} (before : Registered ps R m)
    (reached : Reachable ps m') (same : m'.inside = m.inside) : Registered ps R m'

/-- The machines that are seen between two instructions, with the register of what was bound. -/
inductive Booked : List Program → Register → Machine → Prop where
  | reached {ps : List Program} {R : Register} {m : Machine} (registered : Registered ps R m) :
    Booked ps R m
  | within {ps : List Program} {R : Register} {m : Machine} (before : Registered ps R m) {k : Nat}
    (short : k ≤ m.quantum) : Booked ps (R.during m k) (after (Machine.beginStep k) m)

variable {ps : List Program} {R : Register} {m m' : Machine} {key : Int} {p : ControlBlock}
  {name : String} {b : Binding} {i : Instruction}

namespace Registered

theorem reachable (h : Registered ps R m) : Reachable ps m := by
  induction h with
  | create made => exact .create made
  | load _ given admits ih => exact ih.load given admits
  | step _ ih => exact ih.step
  | outside _ reached => exact reached

theorem fresh (quantum : Int) (size : Nat) (positive : 0 < quantum) (some_slot : 0 < size) :
    Registered [] [] (Machine.fresh quantum size) :=
  .create (Machine.create?_fresh quantum size positive some_slot)

theorem after_createProcess (before : Registered ps R m) (lines : List String) (time : Int)
    (released : 0 ≤ time) (fits : m.nextAddress + lines.length + 2 < m.memory.size) :
    Registered (ps ++ [⟨lines, time⟩]) R
      (after (Machine.createProcess lines (.whole time)) m) :=
  before.load rfl (before.reachable.layout.admits lines released fits)

/-- The files and the input change between requests. -/
theorem fed (h : Registered ps R m) (storage : Storage) (inputs : List String) :
    Registered ps R (m.fed storage inputs) :=
  h.outside (h.reachable.outside storage inputs) rfl

theorem step_to (before : Registered ps R m) (R' : Register)
    (same : R.during m m.quantum.toNat = R') : Registered ps R' (after Machine.step m) :=
  same ▸ before.step

end Registered

/-- Wherever requests lead, there is a register. -/
theorem Reachable.exists_registered (h : Reachable ps m) : ∃ R, Registered ps R m := by
  obtain ⟨l, history⟩ := h.exists_history
  induction history with
  | create made => exact ⟨[], .create made⟩
  | load before given admits ih =>
    obtain ⟨R, registered⟩ := ih before.reachable
    exact ⟨R, registered.load given admits⟩
  | step before ih =>
    obtain ⟨R, registered⟩ := ih before.reachable
    exact ⟨_, registered.step⟩
  | outside before reached same ih =>
    obtain ⟨R, registered⟩ := ih before.reachable
    exact ⟨R, registered.outside reached same⟩

theorem Passed.exists_booked (h : Passed ps m) : ∃ R, Booked ps R m := by
  cases h with
  | reached reachable =>
    obtain ⟨R, registered⟩ := reachable.exists_registered
    exact ⟨R, .reached registered⟩
  | within before short =>
    obtain ⟨R, registered⟩ := before.exists_registered
    exact ⟨_, .within registered short⟩

theorem Booked.passed (h : Booked ps R m) : Passed ps m := by
  cases h with
  | reached registered => exact .reached registered.reachable
  | within before short => exact .within before.reachable short

/-! ### The register fits the memory -/

namespace Register.Fits

/-- An instruction that a process faces changes the reserved slots as it does the register. -/
theorem execute_facing (fits : R.Fits m) (sound : Sound ps m) (facing : Facing m key p i)
    {told : List Event} {goesOn : Bool}
    (result : Machine.execute key i (m.recordAll told) = .ok goesOn m') :
    (R.exec key m.storage m.inputs i).Fits m' := by
  have layout : Layout ps (m.recordAll told) := sound.layout.of_inside rfl
  have fits' : R.Fits (m.recordAll told) := fits.of_inside rfl
  obtain ⟨line, same⟩ := Memory.decode_of_instructionSlot? facing.instruction
  exact fits'.execute layout facing.known
    (fun name target => Instruction.ne_empty_of_target? (same ▸ target))
    (sound.deed_of_facing facing result)

/-- From one moment to the next the reserved slots change as the register does. -/
theorem next (fits : R.Fits m) (h : Passed ps m) (moment : Moment m m') : (R.next m m').Fits m' := by
  cases moment with
  | rest es =>
    have nothing : Machine.executed? m (m.recordAll es) = none := Machine.executed?_eq_none rfl
    rw [Register.next, nothing]
    exact fits.of_inside rfl
  | @execute key p i told goesOn m₁ rests facing result =>
    have sound := h.sound_of_runs facing.busy
    obtain ⟨e, executed, rfl, rfl⟩ := sound.executed?_of_execute rests facing result
    rw [Register.next, executed]
    exact (fits.execute_facing sound facing result).ticked _ _
  | @hinder key p i told goesOn m₁ refused facing result =>
    have sound := h.sound_of_runs facing.busy
    obtain ⟨e, executed, rfl, rfl⟩ := sound.executed?_of_refused refused facing result
    rw [Register.next, executed]
    exact (fits.execute_facing sound facing result).charged _
  | @linger key p r current known instruction es =>
    obtain ⟨e, executed, -, waits⟩ := Machine.executed?_of_linger current known instruction es
    have crowded : R.Fits (m.crowd r key 1) := fits.of_places rfl rfl
    rw [Register.next, executed]
    dsimp only
    rw [waits]
    exact (crowded.charged key).of_inside rfl

theorem during (fits : R.Fits m) (h : Reachable ps m) {k : Nat} (short : k ≤ m.quantum) :
    (R.during m k).Fits (after (Machine.beginStep k) m) := by
  induction k with
  | zero =>
    have still : (after (Machine.beginStep 0) m).scene = m.scene :=
      Machine.view_beginStep_zero Machine.still_promote Machine.still_occupy m
    exact fits.of_places (congrArg Scene.memory still) (congrArg Scene.places still)
  | succ k ih =>
    have before : (k : Int) ≤ m.quantum := by omega
    obtain ⟨s, kept⟩ := h.kept
    exact (ih before).next (Passed.within h before) (kept.moment k)

end Register.Fits

theorem Registered.fits (h : Registered ps R m) : R.Fits m := by
  induction h with
  | create made =>
    obtain ⟨-, -, empty, -⟩ := Sound.create made
    have nobody : ∀ key, ∀ p, _ ≠ some p := fun key p known =>
      nomatch (Scheduler.process?_empty key).symm.trans known
    rw [← empty] at nobody
    exact ⟨⟨fun key p known => absurd known (nobody key p), fun key p known =>
      absurd known (nobody key p)⟩, nofun⟩
  | load before given admits ih =>
    obtain ⟨m₁, load, same⟩ := Machine.load_of_admits given admits
    exact (ih.load before.reachable.layout load).of_inside same
  | @step ps R m before ih =>
    obtain ⟨s, kept⟩ := before.reachable.kept
    have positive := kept.layout.quantum_pos
    have turn := ih.during before.reachable (k := m.quantum.toNat) (by omega)
    have still : (after Machine.step m).scene = (after (Machine.beginStep m.quantum.toNat) m).scene :=
      kept.view_after_step Machine.still_leave Still.measure (Still.tick 1)
    exact turn.of_places (congrArg Scene.memory still) (congrArg Scene.places still)
  | outside _ _ same ih => exact ih.of_inside same

theorem Booked.fits (h : Booked ps R m) : R.Fits m := by
  cases h with
  | reached registered => exact registered.fits
  | within before short => exact before.fits.during before.reachable short

/-! ### Two ways of looking up a name -/

/-- A name means a text both to all processes that print it and to the process under a key when it
writes a file. -/
structure Agreeing (key : Int) (name text : String) (m : Machine) : Prop where
  prints : ∀ k, Machine.execute k (.print name) m = .ok true (m.record (.output k text))
  writes : ∀ path storage, m.storage.write path (Text.encode text.toList) = .ok storage →
    Machine.execute key (.writeFile path name) m = .ok true { m with storage }

theorem Machine.execute_print_of_find {value : String} (found : m.memory.find name = some value)
    (key : Int) : execute key (.print name) m = .ok true (m.record (.output key value)) := by
  simp only [execute, print, bind_apply, get_apply, found, emit_apply, pure_apply]

theorem Machine.execute_writeFile_of_textOf {path text : String} {storage : Storage}
    (known : m.scheduler.process? key = some p) (means : textOf m.memory p name = text)
    (written : m.storage.write path (Text.encode text.toList) = .ok storage) :
    execute key (.writeFile path name) m = .ok true { m with storage } := by
  rw [← means] at written
  simp only [execute, writeFile, bind_apply, process_apply known, get_apply, written, set_apply,
    pure_apply]

theorem Machine.execute_readFile_of_word {path : String} {text word : List Char}
    {words : List (List Char)} {a : Int} {memory : Memory}
    (allowed : Slot.isReservedName name = false) (read : m.storage.readText path = .ok text)
    (split : Text.words text = word :: words) (found : m.memory.addressOf name = some a)
    (written : m.memory.write? a ⟨name, String.ofList word⟩ = .ok memory) (key : Int) :
    execute key (.readFile path name) m = .ok true { m with memory } := by
  simp only [execute, readFile, allowed, Bool.false_eq_true, if_false, bind_apply, get_apply, read,
    split, found, writeSlot, written, pure_apply]

/-- Assigning to a name again changes nothing about what the name means. -/
theorem Register.first?_exec_assign (first : R.first? name = some b) (storage : Storage)
    (inputs : List String) (source : Source) :
    (R.exec b.key storage inputs (.assign name source)).first? name = some b := by
  unfold Register.exec
  dsimp only
  split
  · unfold Register.bind
    split
    · exact first
    · exact Register.first?_concat first rfl
  · exact first

/-- What an assignment leaves is laid out as before. -/
theorem Deed.layout_of_assign {source : Source} {goesOn : Bool} (layout : Layout ps m)
    (known : m.scheduler.process? key = some p) (nonempty : name ≠ "")
    (d : Deed key p m (.assign name source) goesOn m') : Layout ps m' := by
  cases d with
  | bind valued allowed room written =>
    exact (layout.bind known room ⟨nonempty, allowed⟩ written).of_inside rfl
  | complain => exact layout.of_inside rfl

namespace Register.Fits

/-- The two ways of looking up a name agree for the process that comes first. -/
theorem agreeing (fits : R.Fits m) (layout : Layout ps m) (nonempty : name ≠ "")
    (allowed : Slot.isReservedName name = false) (first : R.first? name = some b) :
    Agreeing b.key name b.value m := by
  have found : m.memory.find name = some b.value := by
    rw [fits.find_eq layout nonempty allowed, first]
    rfl
  obtain ⟨oldest, -⟩ := first?_eq_some_iff.1 first
  obtain ⟨-, -, front, back, rfl, -⟩ := oldest?_eq_some_iff.1 oldest
  obtain ⟨p, known⟩ := fits.process? (b := b) (by simp)
  have means : Machine.textOf m.memory p name = b.value := by
    rw [fits.textOf_eq layout known allowed, oldest]
    rfl
  exact ⟨Machine.execute_print_of_find found, fun path storage =>
    Machine.execute_writeFile_of_textOf known means⟩

/-- They still do when the process assigns to the name again. -/
theorem agreeing_after_assign (fits : R.Fits m) (passed : Passed ps m) (nonempty : name ≠ "")
    (allowed : Slot.isReservedName name = false) (first : R.first? name = some b) (source : Source) :
    Agreeing b.key name b.value (after (Machine.execute b.key (.assign name source)) m) := by
  have layout := passed.layout
  obtain ⟨p, front, back, known, -⟩ := fits.addressOf_eq layout nonempty allowed first
  have refuses : Refuses (.assign name source) (Machine.execute b.key (.assign name source)) m :=
    (layout.refuses_assign known name source).map fun _ => true
  cases result : Machine.execute b.key (.assign name source) m with
  | error fault m' =>
    have same := (refuses fault m' result).inside
    rw [after_of_error result]
    exact (fits.of_inside same).agreeing (layout.of_inside same) nonempty allowed first
  | ok goesOn m' =>
    have deed := layout.deed_of_assign known (passed.pidOf known) result
    rw [after_of_ok result]
    exact (fits.assign layout known deed).agreeing (deed.layout_of_assign layout known nonempty)
      nonempty allowed (Register.first?_exec_assign first _ _ source)

/-- When a file is read into the name, they agree on its first word. -/
theorem agreeing_after_readFile {path : String} {text word : List Char} {words : List (List Char)}
    (fits : R.Fits m) (layout : Layout ps m) (nonempty : name ≠ "")
    (allowed : Slot.isReservedName name = false) (first : R.first? name = some b)
    (read : m.storage.readText path = .ok text) (split : Text.words text = word :: words) (k : Int) :
    ∃ m', Machine.execute k (.readFile path name) m = .ok true m' ∧
      Agreeing b.key name (String.ofList word) m' := by
  obtain ⟨p, front, back, -, rfl, -, found, slot⟩ := fits.addressOf_eq layout nonempty allowed first
  obtain ⟨memory, written⟩ := Memory.write?_eq_ok_of_addressOf found ⟨name, String.ofList word⟩
  have isVariable := fits.isVariable layout (b := b) (by simp)
  have layout' := layout.store slot isVariable ⟨nonempty, allowed⟩ written
  exact ⟨_, Machine.execute_readFile_of_word allowed read split found written k,
    (fits.set layout nonempty allowed first found written).agreeing layout' nonempty allowed
      (Register.first?_set first (String.ofList word))⟩

end Register.Fits

/-- What a name stands for in a machine with a register. -/
structure Resolves (R : Register) (m : Machine) (name : String) : Prop where
  /-- For all processes alike, it stands for the oldest variable of the process with the smallest
  number that has bound the name. -/
  find : m.memory.find name = (R.first? name).map Binding.value
  unbound : m.memory.find name = none ↔ ∀ b ∈ R, b.name ≠ name
  /-- A process writes what its own oldest variable holds, or the name. -/
  writes : ∀ key p, m.scheduler.process? key = some p →
    Machine.textOf m.memory p name = R.textOf key name ∧
    ∀ path storage, m.storage.write path (Text.encode (R.textOf key name).toList) = .ok storage →
      Machine.execute key (.writeFile path name) m = .ok true { m with storage }
  /-- Both are the same to a process that has bound the name if none with a smaller number has. It
  changes nothing if the process assigns to the name again, and if any process reads a file into the
  name, it means the first word of the file to both. -/
  agreeing : ∀ key b, R.oldest? key name = some b → (∀ c ∈ R, c.name = name → key ≤ c.key) →
    Agreeing key name b.value m ∧
    (∀ source, Agreeing key name b.value (after (Machine.execute key (.assign name source)) m)) ∧
    ∀ k path text word words, m.storage.readText path = .ok text → Text.words text = word :: words →
      ∃ m', Machine.execute k (.readFile path name) m = .ok true m' ∧
        Agreeing key name (String.ofList word) m'

/-- Wherever the machine gets, there is a register of what was bound, and all names but the two that are
reserved stand for what it says. -/
theorem Passed.resolves (h : Passed ps m) (nonempty : name ≠ "")
    (allowed : Slot.isReservedName name = false) :
    (∃ R, Booked ps R m) ∧ ∀ R, Booked ps R m → Resolves R m name := by
  refine ⟨h.exists_booked, fun R booked => ?_⟩
  have fits := booked.fits
  have layout := h.layout
  have find := fits.find_eq layout nonempty allowed
  refine ⟨find, ?_, fun key p known => ?_, fun key b oldest smallest => ?_⟩
  · rw [find, Option.map_eq_none_iff, Register.first?_eq_none_iff]
  · have means := fits.textOf_eq layout known allowed
    exact ⟨means, fun path storage => Machine.execute_writeFile_of_textOf known means⟩
  · obtain ⟨rfl, -⟩ := Register.oldest?_eq_some_iff.1 oldest
    have first := Register.first?_eq_some_iff.2 ⟨oldest, smallest⟩
    exact ⟨fits.agreeing layout nonempty allowed first,
      fun source => fits.agreeing_after_assign h nonempty allowed first source,
      fun k path text word words read split =>
        fits.agreeing_after_readFile layout nonempty allowed first read split k⟩

/-- The second process bound a name first, since the first one was released later, but the name stands
for the variable of the first. -/
theorem Passed.resolves_late : ∃ (ps : List Program) (R : Register) (m : Machine),
    ps = [⟨["assign x 1"], 1⟩, ⟨["assign x 2", "assign x 3"], 0⟩] ∧ Passed ps m ∧ Booked ps R m ∧
    R = [⟨2, "x", "2"⟩, ⟨2, "x", "3"⟩, ⟨1, "x", "1"⟩] ∧ Resolves R m "x" ∧
    m.memory.find "x" = some "1" ∧ R.textOf 2 "x" = "2" ∧ Agreeing 1 "x" "1" m := by
  have made := Registered.fresh 2 20 (by decide) (by decide)
  have one := made.after_createProcess ["assign x 1"] 1 (by decide) (by decide)
  have both := one.after_createProcess ["assign x 2", "assign x 3"] 0 (by decide) (by decide +kernel)
  have early := both.step_to [⟨2, "x", "2"⟩, ⟨2, "x", "3"⟩] (by decide +kernel)
  have late := early.step_to [⟨2, "x", "2"⟩, ⟨2, "x", "3"⟩, ⟨1, "x", "1"⟩] (by decide +kernel)
  have booked := Booked.reached late
  have resolves := (booked.passed.resolves (show "x" ≠ "" by decide) (by decide)).2 _ booked
  have agreeing := (resolves.agreeing 1 ⟨1, "x", "1"⟩ (by decide) (by decide)).1
  exact ⟨_, _, _, rfl, booked.passed, booked, rfl, resolves, resolves.find.trans (by decide),
    by decide, agreeing⟩

end RoundRobin
