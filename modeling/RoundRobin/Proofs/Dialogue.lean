import RoundRobin.Proofs.ExitCode
import RoundRobin.Proofs.Numeral
import RoundRobin.Proofs.Prologue

/-!
# Settings that are asked for

Who asks for an integer takes the answers one by one up to the first that is a numeral and rejects those
before it (`Asked`). Answers with enough numerals among them are parted into one reply to each of several
questions (`exists_replies`), so the numerals answer the questions in order (`askIntegers_eq`). A session
whose release times and quantum are asked for goes as the one in which the same numbers are given as
arguments, with the questions and the rejections in front (`configure_prefaced`).
-/

namespace RoundRobin.CommandLine

open Operation

/-! ### One question -/

/-- What is said while answers to a question are rejected. -/
def rejections (message : String) (rejected : List String) : List Event :=
  rejected.flatMap fun answer => [.prompt message, .notice (.invalidAnswer answer)]

/-- What comes of asking a question, for the answers that are given. -/
inductive Asked (message : String) : List String → Dialogue Int → Prop where
  /-- The first numeral is taken, and what follows it is left. -/
  | accepted {rejected rest : List String} {answer : String} {n : Int}
    (unfit : ∀ a ∈ rejected, Integer.parse? a = none) (fit : Integer.parse? answer = some n) :
    Asked message (rejected ++ answer :: rest)
      ⟨some n, rejections message rejected ++ [.prompt message], rest⟩
  /-- If there is none, the question is asked once more, and the input is found to have ended. -/
  | ended {rejected : List String} (unfit : ∀ a ∈ rejected, Integer.parse? a = none) :
    Asked message rejected ⟨none, rejections message rejected ++ [.prompt message], []⟩

theorem Asked.reject {message answer : String} {inputs : List String} {d : Dialogue Int}
    (unfit : Integer.parse? answer = none) (asked : Asked message inputs d) :
    Asked message (answer :: inputs)
      { d with events := .prompt message :: .notice (.invalidAnswer answer) :: d.events } := by
  cases asked with
  | accepted others fit => exact .accepted (List.forall_mem_cons.2 ⟨unfit, others⟩) fit
  | ended others => exact .ended (List.forall_mem_cons.2 ⟨unfit, others⟩)

theorem asked_askInteger (message : String) (inputs : List String) :
    Asked message inputs (askInteger message inputs) := by
  induction inputs with
  | nil => exact .ended nofun
  | cons answer rest ih =>
    unfold askInteger
    cases parsed : Integer.parse? answer with
    | some n =>
      have nothing : ∀ a ∈ ([] : List String), Integer.parse? a = none := nofun
      exact .accepted nothing parsed
    | none => exact ih.reject parsed

/-! ### Several questions -/

/-- A reply to a question: some answers that are rejected, and one that is the numeral of an integer. -/
structure Reply where
  rejected : List String
  answer : String
  value : Int
  unfit : ∀ a ∈ rejected, Integer.parse? a = none
  fit : Integer.parse? answer = some value

namespace Reply

/-- The answers in the order in which they are given. -/
def answers (r : Reply) : List String := r.rejected ++ [r.answer]

/-- The question, repeated until it is answered. -/
def exchange (message : String) (r : Reply) : List Event :=
  rejections message r.rejected ++ [.prompt message]

/-- A reply with one more answer that is rejected. -/
def reject (r : Reply) (answer : String) (unfit : Integer.parse? answer = none) : Reply :=
  { r with
    rejected := answer :: r.rejected
    unfit := List.forall_mem_cons.2 ⟨unfit, r.unfit⟩ }

theorem filterMap_answers (r : Reply) : r.answers.filterMap Integer.parse? = [r.value] := by
  have nothing : r.rejected.filterMap Integer.parse? = [] := List.filterMap_eq_nil_iff.2 r.unfit
  rw [answers, List.filterMap_append, nothing, List.nil_append, List.filterMap_cons, r.fit]
  rfl

theorem askInteger_eq (r : Reply) (message : String) (rest : List String) :
    askInteger message (r.answers ++ rest) = ⟨some r.value, r.exchange message, rest⟩ := by
  obtain ⟨rejected, answer, value, unfit, fit⟩ := r
  rw [answers, List.append_assoc, List.singleton_append]
  induction rejected with
  | nil =>
    rw [List.nil_append, askInteger, fit]
    rfl
  | cons first others ih =>
    obtain ⟨bad, unfit'⟩ := List.forall_mem_cons.1 unfit
    rw [List.cons_append, askInteger, bad]
    dsimp only
    rw [ih unfit']
    rfl

end Reply

/-- Answers with enough numerals among them are replies to so many questions, and what is left. -/
theorem exists_replies {count : Nat} {inputs : List String}
    (enough : count ≤ (inputs.filterMap Integer.parse?).length) :
    ∃ (replies : List Reply) (rest : List String),
      inputs = replies.flatMap Reply.answers ++ rest ∧ replies.length = count := by
  induction inputs generalizing count with
  | nil =>
    obtain rfl : count = 0 := Nat.le_zero.1 enough
    exact ⟨[], [], rfl, rfl⟩
  | cons answer rest ih =>
    cases count with
    | zero => exact ⟨[], answer :: rest, rfl, rfl⟩
    | succ count =>
      cases parsed : Integer.parse? answer with
      | some n =>
        rw [List.filterMap_cons, parsed] at enough
        obtain ⟨replies, left, split, length⟩ := ih (Nat.le_of_succ_le_succ enough)
        refine ⟨⟨[], answer, n, nofun, parsed⟩ :: replies, left, ?_, by rw [List.length_cons, length]⟩
        rw [List.flatMap_cons, List.append_assoc, ← split]
        rfl
      | none =>
        rw [List.filterMap_cons, parsed] at enough
        obtain ⟨replies, left, split, length⟩ := ih enough
        cases replies with
        | nil => cases length
        | cons first others =>
          refine ⟨first.reject answer parsed :: others, left, ?_, length⟩
          rw [split]
          rfl

theorem filterMap_replies (replies : List Reply) :
    (replies.flatMap Reply.answers).filterMap Integer.parse? = replies.map Reply.value := by
  induction replies with
  | nil => rfl
  | cons r rest ih =>
    rw [List.flatMap_cons, List.filterMap_append, r.filterMap_answers, ih]
    rfl

/-- The questions with their replies, one after the other. -/
def exchanges (messages : List String) (replies : List Reply) : List Event :=
  (List.zipWith Reply.exchange messages replies).flatten

theorem askIntegers_eq {messages : List String} {replies : List Reply}
    (each : replies.length = messages.length) (rest : List String) :
    askIntegers messages (replies.flatMap Reply.answers ++ rest)
      = ⟨some (replies.map Reply.value), exchanges messages replies, rest⟩ := by
  induction messages generalizing replies with
  | nil =>
    rw [List.length_eq_zero_iff.1 each]
    rfl
  | cons message others ih =>
    cases replies with
    | nil => cases each
    | cons r later =>
      rw [askIntegers, List.flatMap_cons, List.append_assoc, r.askInteger_eq]
      dsimp only
      rw [ih (Nat.succ.inj each)]
      rfl

/-! ### The settings of a session -/

/-- What is asked about so many programs, in this order. -/
def questions (count : Nat) : List String :=
  (List.range' 1 count).map (fun number => "Enter release time for program " ++ toString number ++ ": ")
    ++ ["Enter quantum time for The OS : "]

theorem releaseQuestion_eq (number : Nat) :
    releaseQuestion number = "Enter release time for program " ++ toString number ++ ": " := by
  have text : Integer.text number = toString number := Integer.text_eq_toString number
  unfold releaseQuestion
  rw [text]

theorem questions_eq (count : Nat) :
    questions count = (List.range' 1 count).map releaseQuestion ++ [quantumQuestion] := by
  simp only [questions, ← releaseQuestion_eq, quantumQuestion]

/-- A session with some events before all others. -/
def Session.prefaced (before : List Event) (s : Session) : Session :=
  { s with events := before.toArray ++ s.events }

/-- What was recorded on a machine stands in front of its session. -/
theorem sessionOf_prefaced {load play : Operation Unit} (loads : Deaf load) (plays : Deaf play)
    (before : List Event) (m : Machine) :
    sessionOf load play (m.prefaced before) = (sessionOf load play m).prefaced before := by
  have loading : load.run (m.prefaced before) = preface before (load.run m) := loads before m
  unfold sessionOf
  rw [loading]
  cases load.run m with
  | error fault m' =>
    dsimp only [preface]
    cases fault with
    | numeralTooLong => rfl
    | _ =>
      dsimp only
      rw [Machine.record_prefaced]
      rfl
  | ok _ m' =>
    have playing : play.run (m'.prefaced before) = preface before (play.run m') := plays before m'
    dsimp only [preface]
    rw [playing]
    cases play.run m' <;> rfl

/-- The same command line, with release times and a quantum given. -/
def Options.given (o : Options) (times : List Int) (quantum : Int) : Options :=
  { o with release := some times, quantum := some (some quantum) }

/-- What is done once the programs are loaded depends on neither. -/
theorem runPrograms_given (o : Options) (times : List Int) (quantum : Int) :
    runPrograms (o.given times quantum) = runPrograms o := by
  rw [runPrograms_eq, runPrograms_eq]
  rfl

section

variable {o : Options} {storage : Storage} {programs : List (List String)}

/-- Release times and a quantum that are asked for are those in the replies. -/
theorem call_of_replies (reads : Reads storage o.programs programs) (unreleased : o.release = none)
    (unset : o.quantum = none) {replies : List Reply} (length : replies.length = programs.length)
    (last : Reply) (rest : List String) :
    Call o storage ((replies ++ [last]).flatMap Reply.answers ++ rest) programs
        (replies.map Reply.value) (.whole last.value) ∧
      said o programs.length ((replies ++ [last]).flatMap Reply.answers ++ rest)
        = exchanges (questions programs.length) (replies ++ [last]) ∧
      unread o programs.length ((replies ++ [last]).flatMap Reply.answers ++ rest) = rest := by
  have inputs : (replies ++ [last]).flatMap Reply.answers ++ rest
      = replies.flatMap Reply.answers ++ (last.answers ++ rest) := by
    simp
  have releases : settleReleases o programs.length
        (replies.flatMap Reply.answers ++ (last.answers ++ rest))
      = ⟨some (replies.map Reply.value),
          exchanges ((List.range' 1 programs.length).map releaseQuestion) replies,
          last.answers ++ rest⟩ := by
    unfold settleReleases
    rw [unreleased]
    apply askIntegers_eq
    rw [length, List.length_map, List.length_range']
  have quantum : settleQuantum o (last.answers ++ rest)
      = ⟨some (.whole last.value), last.exchange quantumQuestion, rest⟩ := by
    unfold settleQuantum
    rw [unset]
    dsimp only
    rw [last.askInteger_eq]
    rfl
  rw [inputs]
  refine ⟨⟨reads, ?_, ?_, ?_⟩, ?_, ?_⟩
  · rw [unreleased]
    nofun
  · rw [releases]
  · rw [releases, quantum]
  · rw [said, releases, quantum, questions_eq, exchanges, exchanges,
      List.zipWith_append (by simp [length]), List.flatten_append]
    simp
  · rw [unread, releases, quantum]

/-- A call whose settings are asked for goes as the one in which they are given, with the questions in
front. -/
theorem configure_prefaced {inputs rest : List String} {times : List Int} {quantum : Int}
    (call : Call o storage inputs programs times (.whole quantum))
    (left : unread o programs.length inputs = rest) (sleep : Sleep) :
    configure o programs storage inputs sleep
      = (configure (o.given times quantum) programs storage rest sleep).prefaced
        (said o programs.length inputs) := by
  have call' : Call (o.given times quantum) storage rest programs times (.whole quantum) := by
    refine ⟨call.reads, fun times' given => ?_, rfl, rfl⟩
    cases given
    rw [call.length]
    exact call.reads.length_eq.symm
  have nothing : said (o.given times quantum) programs.length rest = [] := rfl
  have all : unread (o.given times quantum) programs.length rest = rest := rfl
  have size : (o.given times quantum).memorySize = o.memorySize := rfl
  have verbose : (o.given times quantum).verbose = o.verbose := rfl
  have delay : (o.given times quantum).delay = o.delay := rfl
  rw [call.configure_eq, call'.configure_eq, left, all, nothing, size, verbose, delay]
  cases Machine.create? (.whole quantum) (o.memorySize.getD Memory.defaultSize) o.verbose o.delay
      storage rest sleep with
  | error fault => simp [Session.prefaced]
  | ok m =>
    dsimp only
    by_cases unsized : o.memorySize.isNone
    · rw [if_pos unsized, if_pos unsized]
      simp [Session.prefaced]
    · have log : { m with log := (said o programs.length inputs).toArray }
          = ({ m with log := #[] } : Machine).prefaced (said o programs.length inputs) := by
        unfold Machine.prefaced
        rw [Array.append_empty]
      rw [if_neg unsized, if_neg unsized, execute_eq, execute_eq, runPrograms_given, log]
      exact sessionOf_prefaced (deaf_loadPrograms _) (deaf_runPrograms o) _ _

end

theorem reads_of_readPrograms {storage : Storage} {paths : List String} {programs : List (List String)}
    (read : readPrograms storage paths = .ok programs) : Reads storage paths programs := by
  rcases readPrograms_cases storage paths with ⟨programs', read', reads⟩ | ⟨-, -, fault, -, failed⟩
  · cases read.symm.trans read'
    exact reads
  · cases read.symm.trans failed

theorem start_of_unreleased {o : Options} {storage : Storage} {programs : List (List String)}
    (read : readPrograms storage o.programs = .ok programs) (unreleased : o.release = none)
    (inputs : List String) (sleep : Sleep) :
    start o storage inputs sleep = configure o programs storage inputs sleep := by
  unfold start
  rw [read]
  dsimp only
  rw [unreleased]

theorem start_given {o : Options} {storage : Storage} {programs : List (List String)}
    (read : readPrograms storage o.programs = .ok programs) {times : List Int}
    (counted : times.length = programs.length) (quantum : Int) (inputs : List String)
    (sleep : Sleep) : start (o.given times quantum) storage inputs sleep
      = configure (o.given times quantum) programs storage inputs sleep := by
  have read' : readPrograms storage (o.given times quantum).programs = .ok programs := read
  unfold start
  rw [read']
  exact if_pos counted

/-- A session whose release times and quantum are the numerals among the answers, in their order. -/
structure AnsweredBy (o : Options) (storage : Storage) (count : Nat) (inputs : List String)
    (sleep : Sleep) (replies : List Reply) (rest : List String) (times : List Int) (quantum : Int)
    (s : Session) : Prop where
  /-- The answers up to the last one that is taken are a reply to each question. -/
  parted : inputs = replies.flatMap Reply.answers ++ rest
  each : replies.length = (questions count).length
  numerals : (inputs.filterMap Integer.parse?).take (count + 1) = times ++ [quantum]
  counted : times.length = count
  values : replies.map Reply.value = times ++ [quantum]
  /-- Each question is asked until it is answered. From there on the session goes as if the release times
  and the quantum had been given. -/
  same : s = (start (o.given times quantum) storage rest sleep).prefaced
    (exchanges (questions count) replies)
  /-- Once the programs are loaded, their processes have these release times, in the order of their
  numbers, and that quantum. -/
  loaded : ∀ size m, Launch o size storage inputs sleep m → m.quantum = quantum ∧
    m.scheduler.processes.map (fun p => (p.releaseTime, p.quantum)) = times.map fun t => (t, quantum)

/-- Whoever asks takes the first numeral among the answers. So a session in which nothing is given takes
as many of them as there are programs for the release times, and the next one for the quantum. -/
theorem settings_asked : (∀ message inputs, Asked message inputs (askInteger message inputs)) ∧
    ∀ (arguments : List String) (storage : Storage) (inputs : List String) (sleep : Sleep)
      (o : Options) (programs : List (List String)), Options.parse arguments = .ok o →
      o.release = none → o.quantum = none → readPrograms storage o.programs = .ok programs →
      programs.length < (inputs.filterMap Integer.parse?).length →
      ∃ replies rest times quantum, AnsweredBy o storage programs.length inputs sleep replies rest times
        quantum (session arguments storage inputs sleep) := by
  refine ⟨asked_askInteger, ?_⟩
  intro arguments storage inputs sleep o programs parsed unreleased unset read enough
  obtain ⟨all, rest, parted, length⟩ := exists_replies enough
  obtain ⟨replies, last, rfl⟩ : ∃ replies last, all = replies ++ [last] :=
    ⟨_, _, (List.dropLast_concat_getLast (List.ne_nil_of_length_eq_add_one length)).symm⟩
  rw [List.length_append, List.length_singleton, Nat.succ.injEq] at length
  obtain ⟨call, asked, left⟩ := call_of_replies (reads_of_readPrograms read) unreleased unset length
    last rest
  rw [← parted] at call asked left
  have values : (replies ++ [last]).map Reply.value = replies.map Reply.value ++ [last.value] :=
    List.map_append
  refine ⟨replies ++ [last], rest, replies.map Reply.value, last.value, parted, ?_, ?_, ?_, values, ?_,
    fun size m launch => ?_⟩
  · simp [questions, length]
  · rw [parted, List.filterMap_append, filterMap_replies, values]
    apply List.take_left'
    simp [length]
  · rw [List.length_map, length]
  · have counted : (replies.map Reply.value).length = programs.length := by rw [List.length_map, length]
    unfold session
    rw [parsed]
    dsimp only
    rw [start_of_unreleased read unreleased, start_given read counted, configure_prefaced call left,
      asked]
  · cases launch with
    | @intro _ _ _ m₀ _ call' made loaded =>
      cases call.reads.unique call'.reads
      obtain ⟨rfl, rfl⟩ := call.unique call'
      obtain ⟨q, memory, whole, -, -, rfl⟩ := Machine.create?_eq_ok_iff.1 made
      cases whole
      have zipped : (programs.zip (replies.map Reply.value)).map Prod.snd = replies.map Reply.value :=
        List.map_snd_zip (Nat.le_of_eq call.length)
      refine ⟨quantum_loadPrograms loaded, (processes_loadPrograms loaded).trans ?_⟩
      conv_rhs => rw [← zipped, List.map_map]
      rfl

/-- The first program is released at 0, the second at 1, and the quantum is 2; an answer in between is
rejected. -/
theorem settings_asked_twice : ∃ replies rest,
    AnsweredBy { programs := ["p", "q"] } directory 2 ["0", "one", "1", "2", "x"] .returning replies
      rest [0, 1] 2 (session ["p", "q"] directory ["0", "one", "1", "2", "x"]) := by
  have parsed : Options.parse ["p", "q"] = .ok { programs := ["p", "q"] } := by decide +kernel
  have read : readPrograms directory ["p", "q"]
      = .ok [["print a"], ["assign a input", "print a"]] := by decide +kernel
  obtain ⟨replies, rest, times, quantum, answered⟩ := settings_asked.2 ["p", "q"] directory
    ["0", "one", "1", "2", "x"] .returning _ _ parsed rfl rfl read (by decide +kernel)
  have numerals : (["0", "one", "1", "2", "x"].filterMap Integer.parse?).take 3 = [0, 1] ++ [2] := by
    decide +kernel
  obtain ⟨rfl, same⟩ := List.append_inj' (numerals.symm.trans answered.numerals) rfl
  cases same
  exact ⟨replies, rest, answered⟩

end RoundRobin.CommandLine
