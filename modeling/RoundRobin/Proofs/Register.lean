import RoundRobin.Proofs.Moment
import RoundRobin.Proofs.Reserve

/-!
# The register of variables

A register says which variables were bound, by whom and in which order, and what value each of them has
now. What an instruction does to it (`Register.exec`) is told without any memory: an assignment adds a
variable to those of its process while there is room for it, and reading a file into a name sets the
oldest variable of the name that the process with the smallest number has. If the reserved slots hold
what a register says (`Register.Fits`), then both ways of looking up a name can be read off the register
(`Register.Fits.find_eq`, `Register.Fits.textOf_eq`), and each instruction keeps this
(`Register.Fits.execute`).
-/

namespace RoundRobin

open Operation

/-- A variable that a process has bound, with the value that it has now. -/
structure Binding where
  /-- The number of the process. -/
  key : Int
  name : String
  value : String
  deriving DecidableEq, Repr

def Binding.slot (b : Binding) : Slot := ⟨b.name, b.value⟩

/-- The value that an assignment takes from its source, if it gets one. -/
def Source.value? (storage : Storage) (inputs : List String) : Source → Option String
  | .literal value => some value
  | .file path => (storage.firstLine path).toOption
  | .input => inputs.head?.map Text.trimmed

theorem Valued.value?_eq {m : Machine} {source : Source} {value : String}
    (v : Valued m source value) : source.value? m.storage m.inputs = some value := by
  cases v with
  | literal => rfl
  | line read => rw [Source.value?, read]; rfl
  | answer given => rw [Source.value?, given]; rfl

/-- An instruction that gives no name a value leaves the memory as it is and the processes where they
are. -/
theorem Deed.still {key : Int} {p : ControlBlock} {i : Instruction} {m m' : Machine} {goesOn : Bool}
    (d : Deed key p m i goesOn m') (plain : i.target? = none) :
    m'.memory = m.memory ∧ m'.scheduler.places = m.scheduler.places := by
  cases d with
  | block used_up moved => exact ⟨rfl, moved.map_processes fun _ => rfl⟩
  | wake front moved => exact ⟨rfl, moved.map_processes (g := ControlBlock.place) fun _ => rfl⟩
  | bind | store => cases plain
  | _ => exact ⟨rfl, rfl⟩

/-- The variables that were bound, in the order in which they were. -/
abbrev Register := List Binding

namespace Register

/-- The variables that the process under a key has bound. -/
def own (R : Register) (key : Int) : Register := R.filter fun b => b.key == key

/-- The oldest variable of a name that the process under a key has bound. -/
def oldest? (R : Register) (key : Int) (name : String) : Option Binding :=
  R.find? fun b => b.key == key && b.name == name

/-- The smallest number of a process that has bound a name. -/
def owner? (R : Register) (name : String) : Option Int :=
  ((R.filter fun b => b.name == name).map Binding.key).min?

/-- The oldest variable of a name that the process with the smallest number has bound that has bound
the name at all. -/
def first? (R : Register) (name : String) : Option Binding :=
  (R.owner? name).bind fun key => R.oldest? key name

/-- One more variable, if the name is not reserved and there is room. -/
def bind (R : Register) (key : Int) (name value : String) : Register :=
  if Slot.isReservedName name ∨ Memory.reserved ≤ (R.own key).length then R
  else R ++ [⟨key, name, value⟩]

/-- The register with another value for the oldest variable of a name of a process. -/
def set (R : Register) (key : Int) (name value : String) : Register :=
  match R with
  | [] => []
  | b :: r => if b.key = key ∧ b.name = name then { b with value } :: r else b :: set r key name value

/-- What an instruction of the process under a key does to the variables, with the files and the input
that it finds. -/
def exec (R : Register) (key : Int) (storage : Storage) (inputs : List String) :
    Instruction → Register
  | .assign name source =>
    match source.value? storage inputs with
    | some value => R.bind key name value
    | none => R
  | .readFile path name =>
    if Slot.isReservedName name then R
    else
      match storage.readText path, R.first? name with
      | .ok text, some b =>
        match Text.words text with
        | word :: _ => R.set b.key name (String.ofList word)
        | [] => R
      | _, _ => R
  | _ => R

variable {R front back : Register} {key : Int} {name value : String} {b b' : Binding}

/-! ### Looking up a name -/

theorem oldest?_eq_none_iff : R.oldest? key name = none ↔ ∀ b ∈ R, b.key = key → b.name ≠ name := by
  simp [oldest?, List.find?_eq_none]

/-- The oldest variable of a name comes before all others that the process has of that name. -/
theorem oldest?_eq_some_iff : R.oldest? key name = some b ↔ b.key = key ∧ b.name = name ∧
    ∃ front back, R = front ++ b :: back ∧ ∀ c ∈ front, c.key = key → c.name ≠ name := by
  simp [oldest?, List.find?_eq_some_iff_append, and_assoc, imp_iff_not_or]

theorem owner?_eq_none_iff : R.owner? name = none ↔ ∀ b ∈ R, b.name ≠ name := by
  simp [owner?, List.min?_eq_none_iff, List.filter_eq_nil_iff]

theorem owner?_eq_some_iff : R.owner? name = some key ↔
    (∃ b ∈ R, b.key = key ∧ b.name = name) ∧ ∀ b ∈ R, b.name = name → key ≤ b.key := by
  rw [owner?, List.min?_eq_some_iff]
  simp only [List.mem_map, List.mem_filter, beq_iff_eq]
  constructor
  · rintro ⟨⟨b, ⟨hb, named⟩, same⟩, smallest⟩
    exact ⟨⟨b, hb, same, named⟩, fun c hc named' => smallest _ ⟨c, ⟨hc, named'⟩, rfl⟩⟩
  · rintro ⟨⟨b, hb, same, named⟩, smallest⟩
    refine ⟨⟨b, ⟨hb, named⟩, same⟩, ?_⟩
    rintro _ ⟨c, ⟨hc, named'⟩, rfl⟩
    exact smallest c hc named'

theorem first?_eq_some_iff : R.first? name = some b ↔
    R.oldest? b.key name = some b ∧ ∀ c ∈ R, c.name = name → b.key ≤ c.key := by
  unfold first?
  rw [Option.bind_eq_some_iff]
  constructor
  · rintro ⟨key, owner, oldest⟩
    obtain rfl := (oldest?_eq_some_iff.1 oldest).1
    exact ⟨oldest, (owner?_eq_some_iff.1 owner).2⟩
  · rintro ⟨oldest, smallest⟩
    obtain ⟨-, named, front, back, rfl, -⟩ := oldest?_eq_some_iff.1 oldest
    exact ⟨b.key, owner?_eq_some_iff.2 ⟨⟨b, by simp, rfl, named⟩, smallest⟩, oldest⟩

theorem first?_eq_none_iff : R.first? name = none ↔ ∀ b ∈ R, b.name ≠ name := by
  rw [← owner?_eq_none_iff]
  unfold first?
  cases owner : R.owner? name with
  | none => simp
  | some key =>
    obtain ⟨⟨b, hb, rfl, named⟩, -⟩ := owner?_eq_some_iff.1 owner
    simp only [Option.bind_some, reduceCtorEq, iff_false, oldest?_eq_none_iff]
    exact fun none => none b hb rfl named

/-! ### Changes -/

theorem set_append (new : ∀ c ∈ front, c.key = b.key → c.name ≠ b.name) (back : Register)
    (value : String) : (front ++ b :: back).set b.key b.name value
      = front ++ { b with value } :: back := by
  induction front with
  | nil => exact if_pos ⟨rfl, rfl⟩
  | cons c front ih =>
    have other : ¬(c.key = b.key ∧ c.name = b.name) := fun same =>
      new c List.mem_cons_self same.1 same.2
    rw [List.cons_append, set, if_neg other, ih fun d hd => new d (List.mem_cons_of_mem c hd)]
    rfl

/-- A variable that is bound later is not the oldest of its process if there is another of its name. -/
theorem oldest?_concat (oldest : R.oldest? key name = some b) (c : Binding) :
    (R ++ [c]).oldest? key name = some b := by
  rw [oldest?, List.find?_append, ← oldest?, oldest]
  rfl

/-- One more variable of the process that comes first changes nothing about who comes first. -/
theorem first?_concat (first : R.first? name = some b) {c : Binding} (same : c.key = b.key) :
    (R ++ [c]).first? name = some b := by
  obtain ⟨oldest, smallest⟩ := first?_eq_some_iff.1 first
  refine first?_eq_some_iff.2 ⟨oldest?_concat oldest c, fun d hd named => ?_⟩
  rcases List.mem_append.1 hd with old | new
  · exact smallest d old named
  · rw [List.mem_singleton.1 new, same]

/-- A variable that is set is still the oldest of its name. -/
theorem oldest?_set (oldest : R.oldest? key name = some b) (value : String) :
    (R.set key name value).oldest? key name = some { b with value } := by
  obtain ⟨rfl, rfl, front, back, rfl, new⟩ := oldest?_eq_some_iff.1 oldest
  rw [set_append new]
  exact oldest?_eq_some_iff.2 ⟨rfl, rfl, front, back, rfl, new⟩

theorem first?_set (first : R.first? name = some b) (value : String) :
    (R.set b.key name value).first? name = some { b with value } := by
  obtain ⟨oldest, smallest⟩ := first?_eq_some_iff.1 first
  refine first?_eq_some_iff.2 ⟨oldest?_set oldest value, ?_⟩
  obtain ⟨-, rfl, front, back, rfl, new⟩ := oldest?_eq_some_iff.1 oldest
  rw [set_append new]
  intro c hc named
  rcases List.mem_append.1 hc with early | late
  · exact smallest c (List.mem_append_left _ early) named
  · rcases List.mem_cons.1 late with rfl | late
    · exact Int.le_refl _
    · exact smallest c (List.mem_append_right _ (List.mem_cons_of_mem _ late)) named

/-! ### What is in the reserved slots -/

/-- The slots of the variables that the process under a key has bound, in order. -/
def slotsOf (R : Register) (key : Int) : List Slot := (R.own key).map Binding.slot

theorem slotsOf_split (front back : Register) (b : Binding) (key : Int) :
    slotsOf (front ++ b :: back) key
      = slotsOf front key ++ ((if b.key = key then [b.slot] else []) ++ slotsOf back key) := by
  unfold slotsOf own
  rw [List.filter_append, List.map_append, List.filter_cons]
  by_cases same : b.key = key <;> simp [same]

theorem slotsOf_split_self (front back : Register) (b : Binding) :
    slotsOf (front ++ b :: back) b.key = slotsOf front b.key ++ b.slot :: slotsOf back b.key := by
  rw [slotsOf_split, if_pos rfl]
  rfl

theorem slotsOf_concat (R : Register) (key : Int) (name value : String) :
    slotsOf (R ++ [⟨key, name, value⟩])
      = Function.update R.slotsOf key (R.slotsOf key ++ [⟨name, value⟩]) := by
  funext k
  rw [slotsOf_split, Function.update_apply]
  by_cases same : k = key
  · rw [if_pos same, if_pos same.symm, same]
    rfl
  · rw [if_neg same, if_neg (Ne.symm same)]
    exact List.append_nil _

/-- Another variable of the same process at the same place shows nowhere else. -/
theorem slotsOf_replace (front back : Register) (same : b'.key = b.key) :
    slotsOf (front ++ b' :: back) = Function.update (slotsOf (front ++ b :: back)) b.key
      (slotsOf front b.key ++ b'.slot :: slotsOf back b.key) := by
  funext k
  rw [slotsOf_split, Function.update_apply, slotsOf_split, same]
  by_cases own : k = b.key
  · rw [if_pos own, if_pos own.symm, own]
    rfl
  · rw [if_neg own, if_neg (Ne.symm own), if_neg (Ne.symm own)]

theorem name_of_mem_slotsOf {s : Slot} (hs : s ∈ R.slotsOf key) :
    ∃ c ∈ R, c.key = key ∧ c.name = s.name := by
  obtain ⟨c, hc, rfl⟩ := List.mem_map.1 hs
  obtain ⟨hc, same⟩ := List.mem_filter.1 hc
  exact ⟨c, hc, beq_iff_eq.1 same, rfl⟩

/-- The oldest variable of a name is the first of its process that has the name. -/
theorem find?_slotsOf (R : Register) (key : Int) (name : String) :
    (R.slotsOf key).find? (fun s => s.name == name) = (R.oldest? key name).map Binding.slot := by
  rw [slotsOf, own, List.find?_map, List.find?_filter]
  refine congrArg (Option.map Binding.slot ∘ (List.find? · R)) (funext fun b => Bool.eq_iff_iff.2 ?_)
  simp [Binding.slot]

/-- Every process has bound what the register says, and its reserved slots hold this. -/
structure Fits (R : Register) (m : Machine) : Prop where
  reserves : Reserves m R.slotsOf
  known : ∀ b ∈ R, 0 < b.key ∧ b.key ≤ m.scheduler.processes.length

namespace Fits

variable {ps : List Program} {m m' : Machine} {p : ControlBlock} {i : Instruction} {goesOn : Bool}
  {memory : Memory}

theorem process? (fits : R.Fits m) (hb : b ∈ R) : ∃ p, m.scheduler.process? b.key = some p :=
  Option.isSome_iff_exists.1 ((m.scheduler.process?_isSome_iff b.key).2 (fits.known b hb))

/-- What a register names, a variable may be named. -/
theorem isVariable (fits : R.Fits m) (layout : Layout ps m) (hb : b ∈ R) : b.slot.IsVariable := by
  obtain ⟨p, known⟩ := fits.process? hb
  obtain ⟨P, -, placed⟩ := layout.lookup known
  have own : b.slot ∈ R.slotsOf b.key := List.mem_map_of_mem (List.mem_filter.2 ⟨hb, by simp⟩)
  obtain ⟨j, inside, at_j⟩ := List.getElem_of_mem own
  obtain ⟨-, slot⟩ := fits.reserves.slot?_of_getElem? layout known
    ((List.getElem?_eq_getElem inside).trans (congrArg some at_j))
  have bound := fits.reserves.bound b.key p known
  obtain ⟨s, at_j', isVariable⟩ := placed.holds.isVariable j (Int.natCast_nonneg j) (by omega)
  cases slot.symm.trans at_j'
  exact isVariable

/-- Where the variable is that a name stands for. -/
theorem addressOf_eq (fits : R.Fits m) (layout : Layout ps m) (nonempty : name ≠ "")
    (allowed : Slot.isReservedName name = false) (first : R.first? name = some b) :
    ∃ p front back, m.scheduler.process? b.key = some p ∧ R = front ++ b :: back ∧
      (∀ c ∈ front, c.key = b.key → c.name ≠ b.name) ∧
      m.memory.addressOf name = some (p.firstReserved + (slotsOf front b.key).length) ∧
      m.memory.slot? (p.firstReserved + (slotsOf front b.key).length) = some b.slot := by
  obtain ⟨oldest, smallest⟩ := first?_eq_some_iff.1 first
  obtain ⟨-, rfl, front, back, rfl, new⟩ := oldest?_eq_some_iff.1 oldest
  obtain ⟨p, known⟩ := fits.process? (b := b) (by simp)
  have split := slotsOf_split_self front back b
  have at_front : (slotsOf (front ++ b :: back) b.key)[(slotsOf front b.key).length]? = some b.slot := by
    simp [split]
  obtain ⟨-, slot⟩ := fits.reserves.slot?_of_getElem? layout known at_front
  refine ⟨p, front, back, known, rfl, new, ?_, slot⟩
  refine fits.reserves.addressOf_eq_some layout known (s := b.slot) ⟨nonempty, allowed⟩ split
    (fun t ht named => ?_) fun k earlier t ht named => ?_
  · obtain ⟨c, hc, same, name⟩ := name_of_mem_slotsOf ht
    exact new c hc same (name.trans named)
  · obtain ⟨c, hc, same, name⟩ := name_of_mem_slotsOf ht
    have after := smallest c hc (name.trans named)
    omega

theorem addressOf_eq_none (fits : R.Fits m) (layout : Layout ps m) (nonempty : name ≠ "")
    (allowed : Slot.isReservedName name = false) (nobody : R.first? name = none) :
    m.memory.addressOf name = none :=
  fits.reserves.addressOf_eq_none layout nonempty allowed fun k t ht named => by
    obtain ⟨c, hc, -, name⟩ := name_of_mem_slotsOf ht
    exact first?_eq_none_iff.1 nobody c hc (name.trans named)

/-- A name stands for the oldest variable of the process with the smallest number. -/
theorem find_eq (fits : R.Fits m) (layout : Layout ps m) (nonempty : name ≠ "")
    (allowed : Slot.isReservedName name = false) :
    m.memory.find name = (R.first? name).map Binding.value := by
  rw [Memory.find]
  cases first : R.first? name with
  | none =>
    rw [fits.addressOf_eq_none layout nonempty allowed first]
    rfl
  | some b =>
    obtain ⟨p, front, back, -, -, -, found, slot⟩ := fits.addressOf_eq layout nonempty allowed first
    rw [found, Option.bind_some, slot]
    rfl

/-- What a process writes for a name is the value of its own oldest variable, or else the name. -/
theorem textOf_eq (fits : R.Fits m) (layout : Layout ps m)
    (known : m.scheduler.process? key = some p) (allowed : Slot.isReservedName name = false) :
    Machine.textOf m.memory p name = ((R.oldest? key name).map Binding.value).getD name := by
  rw [fits.reserves.textOf_eq layout known allowed, find?_slotsOf, Option.map_map]
  rfl

/-! ### What instructions do -/

theorem of_places (fits : R.Fits m) (memory : m'.memory = m.memory)
    (places : m'.scheduler.places = m.scheduler.places) : R.Fits m' := by
  have length := congrArg List.length places
  rw [Scheduler.places, Scheduler.places, List.length_map, List.length_map] at length
  exact ⟨fits.reserves.of_places memory places, length ▸ fits.known⟩

theorem of_inside (fits : R.Fits m) (same : m'.inside = m.inside) : R.Fits m' :=
  fits.of_places (Machine.memory_of_inside same) (by rw [Machine.scheduler_of_inside same])

/-- A process binds one more variable. -/
theorem bind (fits : R.Fits m) (layout : Layout ps m) (known : m.scheduler.process? key = some p)
    (allowed : Slot.isReservedName name = false) (room : p.bound < 3)
    (written : m.memory.write? p.nextSlot ⟨name, value⟩ = .ok memory) : (R.bind key name value).Fits
      { m with memory, scheduler := m.scheduler.amend key fun p => { p with bound := p.bound + 1 } } := by
  have bound := fits.reserves.bound key p known
  have few : (R.own key).length < 3 := by
    rw [slotsOf, List.length_map] at bound
    omega
  have three : Memory.reserved = 3 := rfl
  rw [Register.bind, if_neg (by simp [allowed, three, few])]
  constructor
  · rw [slotsOf_concat]
    exact fits.reserves.bind layout known (by rwa [slotsOf, List.length_map]) written
  · intro c hc
    dsimp only
    rw [Scheduler.length_amend]
    rcases List.mem_append.1 hc with old | new
    · exact fits.known c old
    · rw [List.mem_singleton.1 new]
      exact (m.scheduler.process?_isSome_iff key).1 (Option.isSome_of_eq_some known)

/-- The variable of a name is set. -/
theorem set (fits : R.Fits m) (layout : Layout ps m) (nonempty : name ≠ "")
    (allowed : Slot.isReservedName name = false) (first : R.first? name = some b) {a : Int}
    (found : m.memory.addressOf name = some a)
    (written : m.memory.write? a ⟨name, value⟩ = .ok memory) :
    (R.set b.key name value).Fits { m with memory } := by
  obtain ⟨p, front, back, known, rfl, new, found', -⟩ := fits.addressOf_eq layout nonempty allowed first
  obtain ⟨-, rfl, -⟩ := oldest?_eq_some_iff.1 (first?_eq_some_iff.1 first).1
  cases found.symm.trans found'
  have split := slotsOf_split_self front back b
  have same : ({ b with value } : Binding).key = b.key := rfl
  rw [set_append new]
  constructor
  · rw [slotsOf_replace front back same]
    exact fits.reserves.store layout known split written
  · intro c hc
    rcases List.mem_append.1 hc with early | late
    · exact fits.known c (List.mem_append_left _ early)
    · rcases List.mem_cons.1 late with rfl | late
      · exact fits.known b (List.mem_append_right _ List.mem_cons_self)
      · exact fits.known c (List.mem_append_right _ (List.mem_cons_of_mem _ late))

/-- An assignment that completes adds a variable, if there is no grievance. -/
theorem assign {source : Source} (fits : R.Fits m) (layout : Layout ps m)
    (known : m.scheduler.process? key = some p) (d : Deed key p m (.assign name source) goesOn m') :
    (R.exec key m.storage m.inputs (.assign name source)).Fits m' := by
  have bound := fits.reserves.bound key p known
  rw [slotsOf, List.length_map] at bound
  have three : Memory.reserved = 3 := rfl
  cases d with
  | bind valued allowed room written =>
    rw [exec, valued.value?_eq]
    exact (fits.bind layout known allowed room written).of_places rfl rfl
  | complain grievance =>
    have same : R.exec key m.storage m.inputs (.assign name source) = R := by
      cases grievance with
      | reservedName valued reserved =>
        rw [exec, valued.value?_eq]
        exact if_pos (.inl reserved)
      | noSpace valued allowed full =>
        rw [exec, valued.value?_eq]
        exact if_pos (.inr (by omega))
      | noLine failed reported =>
        rw [exec, Source.value?, failed]
        rfl
    rw [same]
    exact fits.of_places rfl rfl

/-- Reading a file into a name that completes sets the variable of the name, if there is one. -/
theorem readFile {path : String} (fits : R.Fits m) (layout : Layout ps m) (nonempty : name ≠ "")
    (d : Deed key p m (.readFile path name) goesOn m') :
    (R.exec key m.storage m.inputs (.readFile path name)).Fits m' := by
  cases d with
  | store allowed read split found written =>
    cases first : R.first? name with
    | none => cases found.symm.trans (fits.addressOf_eq_none layout nonempty allowed first)
    | some b =>
      rw [exec, if_neg (by simp [allowed]), read, first]
      dsimp only
      rw [split]
      exact fits.set layout nonempty allowed first found written
  | skip absent =>
    have same : R.exec key m.storage m.inputs (.readFile path name) = R := by
      by_cases reserved : Slot.isReservedName name
      · exact if_pos reserved
      · rw [exec, if_neg reserved]
        cases first : R.first? name with
        | none => cases m.storage.readText path <;> rfl
        | some b =>
          obtain ⟨p, front, back, -, -, -, found, -⟩ :=
            fits.addressOf_eq layout nonempty (Bool.not_eq_true _ ▸ reserved) first
          cases absent.symm.trans found
    rwa [same]
  | complain grievance =>
    have same : R.exec key m.storage m.inputs (.readFile path name) = R := by
      cases grievance with
      | reservedTarget reserved => exact if_pos reserved
      | notRead allowed failed reported =>
        rw [exec, if_neg (by simp [allowed]), failed]
      | nothingToRead allowed read blank =>
        rw [exec, if_neg (by simp [allowed]), read]
        cases R.first? name with
        | none => rfl
        | some b =>
          dsimp only
          rw [blank]
    rw [same]
    exact fits.of_places rfl rfl

/-- An instruction that completes or blocks its process does to the reserved slots what it does to the
register. -/
theorem execute (fits : R.Fits m) (layout : Layout ps m) (known : m.scheduler.process? key = some p)
    (nonempty : ∀ name, i.target? = some name → name ≠ "") (d : Deed key p m i goesOn m') :
    (R.exec key m.storage m.inputs i).Fits m' := by
  cases i with
  | assign name source => exact fits.assign layout known d
  | readFile path name => exact fits.readFile layout (nonempty name rfl) d
  | _ =>
    obtain ⟨memory, places⟩ := d.still rfl
    exact fits.of_places memory places

/-- An instruction that is counted does not show in the reserved slots. -/
theorem charged (fits : R.Fits m) (key : Int) : R.Fits (m.charge key) := by
  have counted : Reserves (m.change key ControlBlock.counted) R.slotsOf :=
    fits.reserves.change fun _ => ⟨rfl, rfl⟩
  exact ⟨counted.of_places rfl rfl,
    by rw [Machine.charge]; exact (Scheduler.length_amend _ _ _).symm ▸ fits.known⟩

/-- Nor does the rest of its tick. -/
theorem ticked (fits : R.Fits m) (key : Int) (goesOn : Bool) : R.Fits (m.ticked key goesOn) := by
  have charged := fits.charged key
  cases goesOn with
  | false => exact charged.of_places rfl rfl
  | true =>
    exact ⟨(charged.reserves.change ControlBlock.advance_frame).of_places rfl rfl,
      (Scheduler.length_amend _ _ _).symm ▸ charged.known⟩

/-- A program that is loaded has bound nothing. -/
theorem load (fits : R.Fits m) (layout : Layout ps m) {P : Program} (load : Load P m m') :
    R.Fits m' := by
  have length : m'.scheduler.processes.length = m.scheduler.processes.length + 1 := by
    obtain ⟨-, -, arrival⟩ := load
    exact arrival.length
  refine ⟨fits.reserves.load layout load ?_, fun b hb => ?_⟩
  · refine List.map_eq_nil_iff.2 (List.filter_eq_nil_iff.2 fun b hb => ?_)
    have known := fits.known b hb
    rw [beq_iff_eq, ProcessTable.nextKey]
    omega
  · have known := fits.known b hb
    omega

end Fits

end Register

end RoundRobin
