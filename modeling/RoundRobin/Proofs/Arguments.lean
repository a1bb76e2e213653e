import RoundRobin.CommandLine.Session
import RoundRobin.Proofs.Numeral

/-!
# Integers from outside

A session takes integers from the arguments of the command line and from the answers to its questions.
All of them were read from numerals, and an integer that was read from a numeral can be written as one
(`Options.written_of_parse`, `isWritable_of_askIntegers`).
-/

namespace RoundRobin.CommandLine

/-- What holds of a result if there is one. -/
def Ensures {ε α : Type} (Q : α → Prop) (x : Except ε α) : Prop := ∀ a, x = .ok a → Q a

theorem Ensures.ok {ε α : Type} {Q : α → Prop} {a : α} (h : Q a) : Ensures Q (.ok a : Except ε α) := by
  rintro a' ⟨⟩
  exact h

theorem Ensures.error {ε α : Type} {Q : α → Prop} (e : ε) : Ensures Q (.error e : Except ε α) := nofun

theorem Ensures.bind {ε α β : Type} {Q : α → Prop} {Q' : β → Prop} {x : Except ε α}
    {f : α → Except ε β} (hx : Ensures Q x) (hf : ∀ a, Q a → Ensures Q' (f a)) :
    Ensures Q' (x >>= f) := by
  cases x with
  | error e => exact .error e
  | ok a => exact hf a (hx a rfl)

namespace Options

/-- All integers that a command line gives can be written. -/
structure Written (o : Options) : Prop where
  quantum : ∀ n, o.quantum = some (some n) → Integer.isWritable n
  release : ∀ times, o.release = some times → ∀ n ∈ times, Integer.isWritable n
  memorySize : ∀ n, o.memorySize = some n → Integer.isWritable n

theorem ensures_whole (f : Flag) (text : String) :
    Ensures (fun n => Integer.isWritable n) (whole f text) := by
  unfold whole
  cases read : Integer.parse? text with
  | none => exact .error _
  | some n => exact .ok (Integer.isWritable_of_parse? read)

theorem ensures_wholes (f : Flag) (texts : List String) :
    Ensures (fun ns => ∀ n ∈ ns, Integer.isWritable n) (wholes f texts) := by
  induction texts with
  | nil => exact .ok nofun
  | cons text rest ih =>
    unfold wholes
    cases read : Integer.parse? text with
    | none => exact .error _
    | some n =>
      exact ih.bind fun ns short => .ok (List.forall_mem_cons.2 ⟨Integer.isWritable_of_parse? read, short⟩)

namespace Written

variable {o : Options}

theorem setOne (h : o.Written) (f : Flag) (text : String) : Ensures Written (o.setOne f text) := by
  cases f with
  | quantum =>
    refine (ensures_whole _ text).bind fun n short => .ok ⟨?_, h.release, h.memorySize⟩
    rintro n' ⟨⟩
    exact short
  | release =>
    refine (ensures_whole _ text).bind fun n short => .ok ⟨h.quantum, ?_, h.memorySize⟩
    rintro times ⟨⟩
    simpa using short
  | memorySize =>
    refine (ensures_whole _ text).bind fun n short => .ok ⟨h.quantum, h.release, ?_⟩
    rintro n' ⟨⟩
    exact short
  | delay =>
    unfold Options.setOne real
    cases Decimal.parse? text with
    | none => exact .error _
    | some x => exact .ok ⟨h.quantum, h.release, h.memorySize⟩
  | gantt | csv | verbose => exact .ok ⟨h.quantum, h.release, h.memorySize⟩
  | help => exact .error _

theorem setEmpty (h : o.Written) (f : Flag) : (o.setEmpty f).Written := by
  cases f with
  | quantum => exact ⟨nofun, h.release, h.memorySize⟩
  | release =>
    refine ⟨h.quantum, ?_, h.memorySize⟩
    rintro times ⟨⟩
    nofun
  | memorySize => exact ⟨h.quantum, h.release, nofun⟩
  | _ => exact ⟨h.quantum, h.release, h.memorySize⟩

theorem setAttached (h : o.Written) (f : Flag) (text : String) :
    Ensures Written (o.setAttached f text) := by
  unfold Options.setAttached
  split
  · exact .ok (h.setEmpty f)
  · exact h.setOne f text

theorem setNone (h : o.Written) (f : Flag) : Ensures Written (o.setNone f) := by
  cases f with
  | help => exact .error _
  | _ => exact .ok ⟨h.quantum, h.release, h.memorySize⟩

theorem takeOperands {p : Progress} (h : p.options.Written) (texts : List String) :
    (p.takeOperands texts).options.Written := by
  unfold Progress.takeOperands
  split
  · exact h
  · exact ⟨h.quantum, h.release, h.memorySize⟩

theorem takeFlag {p : Progress} (h : p.options.Written) (f : Flag) (attached : Option String)
    (rest : List Argument) : Ensures (fun r => r.1.options.Written) (p.takeFlag f attached rest) := by
  unfold Progress.takeFlag
  split
  · exact .error _
  · exact (h.setNone f).bind fun _ written => .ok written
  · exact (h.setAttached f _).bind fun _ written => .ok written
  · split
    · exact (h.setOne f _).bind fun _ written => .ok written
    · exact .error _
  · split
    · exact .error _
    · refine (ensures_wholes f _).bind fun ns short => .ok ⟨h.quantum, ?_, h.memorySize⟩
      rintro times ⟨⟩
      exact short

theorem consume {p : Progress} (h : p.options.Written) (rounds : Nat) (arguments : List Argument) :
    Ensures (fun p => p.options.Written) (p.consume rounds arguments) := by
  induction rounds generalizing p arguments with
  | zero => cases arguments <;> exact .ok h
  | succ rounds ih =>
    cases arguments with
    | nil => exact .ok h
    | cons argument rest =>
      cases argument with
      | operand | separator => exact ih (h.takeOperands _) _
      | unknown text => exact ih (p := { p with leftOver := p.leftOver ++ [text] }) h rest
      | shortHelp tail =>
        unfold Progress.consume
        dsimp only
        split <;> exact .error _
      | flag f attached => exact (h.takeFlag f attached rest).bind fun _ written => ih written _

end Written

/-- All integers of a command line that is accepted can be written. -/
theorem written_of_parse {arguments : List String} {o : Options} (accepted : parse arguments = .ok o) :
    o.Written := by
  have first : ({ programs := defaultPrograms } : Options).Written := by
    refine ⟨nofun, nofun, ?_⟩
    rintro n ⟨⟩
    decide +kernel
  have ensures : Ensures Written (parse arguments) := by
    unfold parse
    cases Argument.classifyAll arguments with
    | error misuse => exact .error _
    | ok classified =>
      refine (Written.consume (p := {}) first _ _).bind fun p written => ?_
      split
      · exact .ok written
      · exact .error _
  exact ensures o accepted

end Options

/-! ### Answers -/

theorem isWritable_of_askInteger {message : String} {inputs : List String} {n : Int}
    (answered : (askInteger message inputs).answer = some n) : Integer.isWritable n := by
  induction inputs with
  | nil => cases answered
  | cons answer rest ih =>
    unfold askInteger at answered
    split at answered
    · rename_i read
      cases answered
      exact Integer.isWritable_of_parse? read
    · exact ih answered

theorem isWritable_of_askIntegers {messages inputs : List String} {ns : List Int}
    (answered : (askIntegers messages inputs).answer = some ns) : ∀ n ∈ ns, Integer.isWritable n := by
  induction messages generalizing inputs ns with
  | nil =>
    cases answered
    nofun
  | cons message rest ih =>
    unfold askIntegers at answered
    dsimp only at answered
    split at answered
    · cases answered
    · rename_i first
      obtain ⟨later, given, rfl⟩ := Option.map_eq_some_iff.1 answered
      exact List.forall_mem_cons.2 ⟨isWritable_of_askInteger first, ih given⟩

section

variable {o : Options} (written : o.Written) {count : Nat} {inputs : List String}

include written

/-- The release times that a session takes can be written. -/
theorem isWritable_of_settleReleases {times : List Int}
    (settled : (settleReleases o count inputs).answer = some times) :
    ∀ n ∈ times, Integer.isWritable n := by
  unfold settleReleases at settled
  split at settled
  · rename_i given
    cases settled
    exact written.release _ given
  · exact isWritable_of_askIntegers settled

/-- The quantum that a session takes can be written. -/
theorem isWritable_of_settleQuantum {quantum : Setting} {q : Int}
    (settled : (settleQuantum o inputs).answer = some quantum) (whole : quantum.integer? = some q) :
    Integer.isWritable q := by
  unfold settleQuantum at settled
  split at settled
  · rename_i given
    cases settled
    cases whole
    exact written.quantum _ given
  · cases settled
    cases whole
  · obtain ⟨n, answered, rfl⟩ := Option.map_eq_some_iff.1 settled
    cases whole
    exact isWritable_of_askInteger answered

end

end RoundRobin.CommandLine
