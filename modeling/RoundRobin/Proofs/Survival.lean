import RoundRobin.Proofs.Fixtures
import RoundRobin.Proofs.LineEnding
import RoundRobin.Proofs.Naming
import RoundRobin.Proofs.Words

/-!
# Values that survive a trip through a file

A value without line ends that a process writes to a file comes back from it as long as the file is
spared (`Storage.Spared`): whoever assigns the first line of the file to a name binds that value, and
whoever reads the file into a name gets its first word (`Yields`). What the machine does spares a file if
no instruction that it executes writes it (`Reachable.spares_step`).
-/

namespace RoundRobin

open Operation

namespace Storage

/-- The file at a place is as it was, and so are the fixtures. -/
structure Spared (place : Place) (s s' : Storage) : Prop where
  fixtures : s'.fixtures = s.fixtures
  file : s'.entryAt place = s.entryAt place

variable {s s' s'' : Storage} {place other : Place} {path : String} {content : Text.Bytes}

theorem Spared.refl (place : Place) (s : Storage) : Spared place s s := ⟨rfl, rfl⟩

theorem Spared.trans (h : Spared place s s') (later : Spared place s' s'') : Spared place s s'' :=
  ⟨later.fixtures.trans h.fixtures, later.file.trans h.file⟩

/-- Writing spares all other files. -/
theorem spared_write (found : s.target path = .ok other) (ne : other ≠ place)
    (written : s.write path content = .ok s') : Spared place s s' := by
  obtain ⟨_, found', entries⟩ := entryAt_write written
  cases found.symm.trans found'
  exact ⟨fixtures_write written, (entries place).trans (if_neg (Ne.symm ne))⟩

/-- What was written is read back as long as the file is spared. -/
theorem read_of_spared (found : s.target path = .ok place)
    (written : s.write path content = .ok s') (spared : Spared place s' s'') :
    s''.read path = .ok content := by
  obtain ⟨_, found', entries⟩ := entryAt_write written
  cases found.symm.trans found'
  have same : s''.fixtures = s.fixtures := spared.fixtures.trans (fixtures_write written)
  exact read_of_target (target_of_fixtures same found)
    (spared.file.trans ((entries place).trans (if_pos rfl)))

end Storage

/-! ### What spares a file -/

/-- The path to which an instruction writes, if it writes a file. -/
def Instruction.written? : Instruction → Option String
  | .writeFile path _ => some path
  | _ => none

/-- An instruction spares every file that it does not write. -/
theorem Deed.spares {key : Int} {p : ControlBlock} {i : Instruction} {m m' : Machine} {goesOn : Bool}
    (d : Deed key p m i goesOn m') {place : Place}
    (elsewhere : ∀ path ∈ i.written?, m.storage.target path ≠ .ok place) :
    Storage.Spared place m.storage m'.storage := by
  cases d with
  | @write path name storage written =>
    obtain ⟨other, found, -⟩ := Storage.entryAt_write written
    exact Storage.spared_write found (fun same => elsewhere path rfl (same ▸ found)) written
  | _ => exact .refl _ _

/-- What was executed from one moment to the next, if anything was, does not write the file at a
place. -/
def WritesElsewhere (place : Place) (m m' : Machine) : Prop :=
  ∀ e ∈ Machine.executed? m m', ∀ path ∈ e.instruction.written?, m.storage.target path ≠ .ok place

instance (place : Place) (m m' : Machine) : Decidable (WritesElsewhere place m m') :=
  inferInstanceAs (Decidable (∀ e ∈ Machine.executed? m m', ∀ path ∈ e.instruction.written?, _))

theorem Moment.spares {ps : List Program} {m m' : Machine} (h : Passed ps m) (moment : Moment m m')
    {place : Place} (elsewhere : WritesElsewhere place m m') :
    Storage.Spared place m.storage m'.storage := by
  cases moment with
  | rest | linger => exact .refl _ _
  | @execute key p i told goesOn m₁ rests facing result =>
    have sound := h.sound_of_runs facing.busy
    obtain ⟨e, executed, rfl, rfl⟩ := sound.executed?_of_execute rests facing result
    have ticks : (m₁.ticked e.key goesOn).storage = m₁.storage := by cases goesOn <;> rfl
    rw [ticks]
    exact (sound.deed_of_facing facing result).spares (elsewhere e executed)
  | @hinder key p i told goesOn m₁ refused facing result =>
    have sound := h.sound_of_runs facing.busy
    obtain ⟨e, executed, rfl, rfl⟩ := sound.executed?_of_refused refused facing result
    exact (sound.deed_of_facing facing result).spares (elsewhere e executed)

section

variable {ps : List Program} {m : Machine} {place : Place}

/-- The moments of a step spare a file that no instruction writes that was executed between them. -/
theorem Reachable.spares_beginStep (h : Reachable ps m) {k : Nat} (short : k ≤ m.quantum)
    (elsewhere : ∀ j < k, WritesElsewhere place (after (Machine.beginStep j) m)
      (after (Machine.beginStep (j + 1)) m)) :
    Storage.Spared place m.storage (after (Machine.beginStep k) m).storage := by
  induction k with
  | zero =>
    have same : (after (Machine.beginStep 0) m).storage = m.storage :=
      Machine.view_beginStep_zero Machine.unwritten_promote Machine.unwritten_occupy m
    rw [same]
    exact .refl _ _
  | succ k ih =>
    have before : (k : Int) ≤ m.quantum := by omega
    obtain ⟨s, kept⟩ := h.kept
    exact (ih before fun j less => elsewhere j (Nat.lt_succ_of_lt less)).trans
      ((kept.moment k).spares (Passed.within h before) (elsewhere k (Nat.lt_succ_self k)))

/-- A step spares a file that no instruction writes that is executed in it. -/
theorem Reachable.spares_step (h : Reachable ps m) (elsewhere : ∀ k < m.quantum.toNat,
      WritesElsewhere place (after (Machine.beginStep k) m) (after (Machine.beginStep (k + 1)) m)) :
    Storage.Spared place m.storage (after Machine.step m).storage := by
  obtain ⟨s, kept⟩ := h.kept
  have positive := kept.layout.quantum_pos
  have same : (after Machine.step m).storage
      = (after (Machine.beginStep m.quantum.toNat) m).storage :=
    kept.view_after_step Machine.unwritten_leave (fun _ _ => rfl) fun _ => rfl
  rw [same]
  exact h.spares_beginStep (by omega) elsewhere

end

/-! ### What comes back -/

theorem Text.exists_first_word {cs : List Char} (some_word : ¬Text.AllBlank cs) :
    ∃ lead w r, cs = lead ++ w ++ r ∧ Text.AllBlank lead ∧ Text.IsWord w ∧ Text.Parted r ∧
      ∃ ws, Text.words cs = w :: ws := by
  have spaced := Text.spaced_words cs
  generalize Text.words cs = ws at spaced ⊢
  cases spaced with
  | blank blank => exact absurd blank some_word
  | @word lead w r ws blank word parted rest =>
    exact ⟨lead, w, r, rfl, blank, word, parted, ws, rfl⟩

/-- What a process gets from the file at a path that holds a value. -/
structure Yields (path value : String) (m : Machine) : Prop where
  /-- Who assigns the first line of the file to a name binds the value, if there is room. -/
  assigns : ∀ key p name, m.scheduler.process? key = some p → p.bound < 3 →
    Slot.isReservedName name = false → ∃ memory,
      m.memory.write? p.nextSlot ⟨name, value⟩ = .ok memory ∧
      Machine.execute key (.assign name (.file path)) m = .ok true { m with
        memory, scheduler := m.scheduler.amend key fun p => { p with bound := p.bound + 1 } }
  /-- Who reads the file into a name sets the variable that the name stands for to the first word of
  the value. -/
  stores : ∀ key name a, Slot.isReservedName name = false → m.memory.addressOf name = some a →
    ¬Text.AllBlank value.toList → ∃ lead w r, value.toList = lead ++ w ++ r ∧ Text.AllBlank lead ∧
      Text.IsWord w ∧ Text.Parted r ∧ ∃ memory,
        m.memory.write? a ⟨name, String.ofList w⟩ = .ok memory ∧
        Machine.execute key (.readFile path name) m = .ok true { m with memory }
  /-- If the value has no words, there is nothing but a complaint. -/
  nothing : ∀ key p name, m.scheduler.process? key = some p → Slot.isReservedName name = false →
    Text.AllBlank value.toList → Machine.execute key (.readFile path name) m
      = .ok true (m.record (.notice (.complaint key (.nothingToRead path))))

theorem Passed.yields {ps : List Program} {m : Machine} {path value : String} (h : Passed ps m)
    (held : m.storage.read path = .ok (Text.encode value.toList)) (line : Text.IsLine value.toList)
    (some_char : value ≠ "") : Yields path value m := by
  have chars : value.toList ≠ [] := fun none => some_char (String.toList_eq_nil_iff.1 none)
  have first : m.storage.firstLine path = .ok value := by
    rw [Storage.firstLine_of_read held, line.lines_eq chars]
    exact congrArg Except.ok String.ofList_toList
  have whole := Storage.readText_of_read held
  refine ⟨fun key p name known room allowed => ?_, fun key name a allowed found some_word => ?_,
    fun key p name known allowed blank => ?_⟩
  · obtain ⟨P, -, placed⟩ := h.layout.lookup known
    obtain ⟨memory, written⟩ :=
      Memory.write?_eq_ok_of_slot? (placed.holds.slot?_nextSlot room) ⟨name, value⟩
    refine ⟨memory, written, ?_⟩
    rw [Machine.execute, bind_apply, (Valued.line first).assign_apply, Machine.asked_of_silent rfl,
      Machine.bindName_of_room allowed known room written]
    rfl
  · obtain ⟨lead, w, r, split, blank, word, parted, ws, words⟩ := Text.exists_first_word some_word
    obtain ⟨memory, written⟩ := Memory.write?_eq_ok_of_addressOf found ⟨name, String.ofList w⟩
    exact ⟨lead, w, r, split, blank, word, parted, memory, written,
      Machine.execute_readFile_of_word allowed whole words found written key⟩
  · exact Machine.execute_of_grievance known (h.pidOf known) (.nothingToRead allowed whole blank.words_eq)

/-- A process writes its oldest variable of a name to a file. If its value is on one line and not empty,
the file then holds its bytes, and whatever happens to the machine, the value comes back from the file as
long as the file is spared. -/
theorem Booked.value_survives {ps : List Program} {R : Register} {m : Machine} {key : Int}
    {p : ControlBlock} {name path : String} {b : Binding} {place : Place} (h : Booked ps R m)
    (known : m.scheduler.process? key = some p) (oldest : R.oldest? key name = some b)
    (some_char : b.value ≠ "") (line : Text.IsLine b.value.toList)
    (opens : m.storage.target path = .ok place) :
    ∃ storage, Machine.execute key (.writeFile path name) m = .ok true { m with storage } ∧
      storage.entryAt place = some (.file (Text.encode b.value.toList)) ∧
      storage.read path = .ok (Text.encode b.value.toList) ∧
      ∀ ps' m', Passed ps' m' → Storage.Spared place storage m'.storage → Yields path b.value m' := by
  have layout := h.passed.layout
  obtain ⟨rfl, rfl, front, back, split, -⟩ := Register.oldest?_eq_some_iff.1 oldest
  have allowed : Slot.isReservedName b.name = false :=
    (h.fits.isVariable layout (b := b) (by rw [split]; simp)).2
  have means : Machine.textOf m.memory p b.name = b.value := by
    rw [h.fits.textOf_eq layout known allowed, oldest]
    rfl
  have written := Storage.write_of_target opens (Text.encode b.value.toList)
  obtain ⟨_, found, entries⟩ := Storage.entryAt_write written
  cases opens.symm.trans found
  exact ⟨_, Machine.execute_writeFile_of_textOf known means written,
    (entries place).trans (if_pos rfl), Storage.read_of_spared opens written (.refl _ _),
    fun ps' m' passed spared =>
      passed.yields (Storage.read_of_spared opens written spared) line some_char⟩

/-- A process writes what it was given, a value that starts with a byte order mark and contains a line
separator. In the next step another process assigns it to a name of its own, and it can still be had. -/
theorem Booked.value_survives_separator : ∃ (m : Machine) (storage : Storage),
    Booked [⟨["assign x input"], 0⟩, ⟨["assign y readFile f"], 0⟩] [⟨1, "x", "\uFEFF a\u2028b"⟩] m ∧
    Machine.execute 1 (.writeFile "f" "x") m = .ok true { m with storage } ∧
    storage.read "f" = .ok (Text.encode "\uFEFF a\u2028b".toList) ∧
    (after Machine.step (m.fed storage [])).memory.find "y" = some "\uFEFF a\u2028b" ∧
    Yields "f" "\uFEFF a\u2028b" (after Machine.step (m.fed storage [])) := by
  have made := Registered.fresh 1 20 (by decide) (by decide)
  have one := made.after_createProcess ["assign x input"] 0 (by decide) (by decide)
  have both := one.after_createProcess ["assign y readFile f"] 0 (by decide) (by decide +kernel)
  have given := both.fed {} ["\uFEFF a\u2028b"]
  have bound := given.step_to [⟨1, "x", "\uFEFF a\u2028b"⟩] (by decide +kernel)
  obtain ⟨p, known⟩ := bound.fits.process? (List.mem_singleton_self _)
  obtain ⟨storage, written, -, read, survives⟩ := (Booked.reached bound).value_survives known
    (show Register.oldest? _ 1 "x" = some ⟨1, "x", "\uFEFF a\u2028b"⟩ by decide) (by decide) (by decide)
    (show Storage.target _ "f" = .ok ["f"] by decide +kernel)
  have holds : _ = storage := congrArg Machine.storage (after_of_ok written)
  refine ⟨_, storage, .reached bound, written, read, ?_,
    survives _ _ (.reached (bound.fed storage []).step.reachable)
      ((bound.fed storage []).reachable.spares_step ?_)⟩
  · rw [← holds]
    decide +kernel
  · rw [← holds]
    decide +kernel

end RoundRobin
