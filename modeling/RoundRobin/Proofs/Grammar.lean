import RoundRobin.Proofs.Words

/-!
# The grammar of instructions

Which lines stand for which instructions, said by the words of the line alone (`Reads`), and that
`decode` finds that instruction for every line (`decode_grammar`). Only the literal value of an
assignment is more than words, as the blanks inside it belong to it. It is found by another way of
splitting the line than the words are, and the two agree: it is the only end of the line that starts and
ends with no blank and whose words are those after the first two (`IsValue`).
-/

namespace RoundRobin

namespace Text

theorem map_toList_wordsOf (text : String) :
    (wordsOf text).map String.toList = words text.toList := by
  simp [wordsOf, Function.comp_def]

theorem isWord_of_mem_wordsOf {text w : String} (hw : w ∈ wordsOf text) : IsWord w.toList := by
  have mem := List.mem_map_of_mem (f := String.toList) hw
  rw [map_toList_wordsOf] at mem
  exact isWord_of_mem_words mem

theorem IsWord.wordsOf_eq {w : String} (h : IsWord w.toList) : wordsOf w = [w] := by
  rw [wordsOf, h.words_eq, List.map_singleton, String.ofList_toList]

/-- A text that starts and ends with no blank and has one word is that word. -/
theorem eq_of_wordsOf {text w : String} (trimmed : IsTrimmed text.toList)
    (single : wordsOf text = [w]) : text = w := by
  apply String.toList_injective
  apply trimmed.eq_of_words
  rw [← map_toList_wordsOf, single]
  rfl

end Text

namespace Instruction

open Text

/-- What follows the first two words of a line and the blanks after them, up to its last word. -/
def valueOf (line : String) : String := String.ofList (afterWords 2 (trim line.toList))

/-- The rest of a line that an assignment may take literally. -/
structure IsValue (line value : String) : Prop where
  ne_empty : value ≠ ""
  trimmed : IsTrimmed value.toList
  suffix : value.toList <:+ trim line.toList
  words : wordsOf value = (wordsOf line).drop 2

/-- The words of a line that stands for a known instruction. -/
def Accepted (ws : List String) : Prop :=
  ((ws[0]? = some "semWait" ∨ ws[0]? = some "semSignal") ∧ ∃ r ∈ Resource.all, ws[1]? = some r.name)
    ∨ (ws[0]? = some "assign" ∧ 3 ≤ ws.length)
    ∨ (ws[0]? = some "print" ∧ 2 ≤ ws.length)
    ∨ ((∃ op ∈ ["printFromTo", "writeFile", "readFile"], ws[0]? = some op) ∧ 3 ≤ ws.length)

instance : DecidablePred Accepted := fun ws => by unfold Accepted; infer_instance

/-- The instruction that a line stands for, by the words of the line. -/
inductive Reads (line : String) : Instruction → Prop where
  | semWait {r : Resource} (front : ["semWait", r.name] <+: wordsOf line) : Reads line (.semWait r)
  | semSignal {r : Resource} (front : ["semSignal", r.name] <+: wordsOf line) :
      Reads line (.semSignal r)
  | input {x : String} (whole : wordsOf line = ["assign", x, "input"]) :
      Reads line (.assign x .input)
  | file {x path : String} (front : ["assign", x, "readFile", path] <+: wordsOf line) :
      Reads line (.assign x (.file path))
  | literal {x value : String} (front : ["assign", x] <+: wordsOf line)
      (is_value : IsValue line value) (not_input : (wordsOf line).drop 2 ≠ ["input"])
      (not_file : ∀ path, ¬ ["readFile", path] <+: (wordsOf line).drop 2) :
      Reads line (.assign x (.literal value))
  | print {x : String} (front : ["print", x] <+: wordsOf line) : Reads line (.print x)
  | printFromTo {a b : String} (front : ["printFromTo", a, b] <+: wordsOf line) :
      Reads line (.printFromTo a b)
  | writeFile {path x : String} (front : ["writeFile", path, x] <+: wordsOf line) :
      Reads line (.writeFile path x)
  | readFile {path x : String} (front : ["readFile", path, x] <+: wordsOf line) :
      Reads line (.readFile path x)
  | unknown (rejected : ¬ Accepted (wordsOf line)) : Reads line (.unknown (wordsOf line))

variable {line value : String}

/-! ### The value of an assignment -/

theorem toList_valueOf (line : String) :
    (valueOf line).toList = afterWords 2 (trim line.toList) :=
  String.toList_ofList

theorem wordsOf_valueOf (line : String) : wordsOf (valueOf line) = (wordsOf line).drop 2 := by
  rw [wordsOf, toList_valueOf, words_afterWords, words_trim, List.map_drop, wordsOf]

theorem isTrimmed_valueOf (line : String) : IsTrimmed (valueOf line).toList := by
  rw [toList_valueOf]
  exact isTrimmed_afterWords 2 (isTrimmed_trim line.toList)

theorem isValue_valueOf (enough : 3 ≤ (wordsOf line).length) : IsValue line (valueOf line) := by
  refine ⟨fun empty => ?_, isTrimmed_valueOf line, ?_, wordsOf_valueOf line⟩
  · have later := wordsOf_valueOf line
    rw [empty, show wordsOf "" = [] from rfl, eq_comm, List.drop_eq_nil_iff] at later
    omega
  · rw [toList_valueOf]
    exact afterWords_suffix 2 (trim line.toList)

/-- No other end of a line has the words of its value. -/
theorem IsValue.eq (h : IsValue line value) : value = valueOf line := by
  apply String.toList_injective
  refine eq_of_suffix_of_words h.suffix ?_ h.trimmed (isTrimmed_valueOf line) ?_
  · rw [toList_valueOf]
    exact afterWords_suffix 2 (trim line.toList)
  · rw [← map_toList_wordsOf, ← map_toList_wordsOf, h.words, wordsOf_valueOf]

theorem IsValue.three_le (h : IsValue line value) : 3 ≤ (wordsOf line).length := by
  by_contra few
  apply h.ne_empty
  apply String.toList_injective
  apply h.trimmed.eq_nil
  rw [← map_toList_wordsOf, h.words, List.map_eq_nil_iff, List.drop_eq_nil_iff]
  omega

theorem valueOf_eq_input_iff : valueOf line = "input" ↔ (wordsOf line).drop 2 = ["input"] := by
  rw [← wordsOf_valueOf]
  constructor
  · intro h
    rw [h]
    rfl
  · exact eq_of_wordsOf (isTrimmed_valueOf line)

theorem getElem?_splitAtMost (enough : 3 ≤ (wordsOf line).length) :
    (splitAtMost 2 (trim line.toList))[2]? = some (valueOf line).toList := by
  have count : (Text.words (trim line.toList)).length = (wordsOf line).length := by
    rw [words_trim, wordsOf, List.length_map]
  have two : ((Text.words (trim line.toList)).take 2).length = 2 := by
    rw [List.length_take, count]
    omega
  rw [splitAtMost_eq, if_pos (by omega), List.getElem?_append_right two.le, two, toList_valueOf]
  rfl

/-! ### The instruction of a line -/

theorem Reads.accepted {i : Instruction} (h : Reads line i) (known : ∀ ws, i ≠ .unknown ws) :
    Accepted (wordsOf line) := by
  cases h with
  | unknown => exact absurd rfl (known _)
  | input whole => simp [Accepted, whole]
  | literal front is_value =>
    obtain ⟨rest, whole⟩ := front
    have enough := is_value.three_le
    rw [← whole] at enough ⊢
    simpa [Accepted] using enough
  | @semWait r front | @semSignal r front =>
    obtain ⟨rest, whole⟩ := front
    rw [← whole]
    refine .inl ⟨by simp, r, r.mem_all, rfl⟩
  | file front | print front | printFromTo front | writeFile front | readFile front =>
    obtain ⟨rest, whole⟩ := front
    simp [Accepted, ← whole]

/-- Whatever follows the name in an assignment is one of its three sources. -/
theorem reads_assign {x b : String} {rest : List String}
    (whole : wordsOf line = "assign" :: x :: b :: rest) :
    Reads line (.assign x (sourceOf (valueOf line) (b :: rest))) := by
  have later : (wordsOf line).drop 2 = b :: rest := by rw [whole]; rfl
  have is_value : IsValue line (valueOf line) := isValue_valueOf (by simp [whole])
  have front : ["assign", x] <+: wordsOf line := ⟨b :: rest, whole.symm⟩
  have written : valueOf line = "input" ↔ b :: rest = ["input"] := by
    rw [valueOf_eq_input_iff, later]
  cases rest with
  | nil =>
    simp only [sourceOf]
    by_cases input : valueOf line = "input"
    · obtain ⟨rfl, -⟩ := List.cons.inj (written.1 input)
      rw [if_pos input]
      exact .input whole
    · rw [if_neg input]
      apply Reads.literal front is_value
      · rw [later]
        exact mt written.2 input
      · rw [later]
        simp
  | cons path rest =>
    simp only [sourceOf]
    by_cases file : b = "readFile"
    · subst file
      rw [if_pos rfl]
      exact .file ⟨rest, whole.symm⟩
    · rw [if_neg file]
      apply Reads.literal front is_value
      · simp [later]
      · rw [later]
        simp [Ne.symm file]

theorem reads_decode (line : String) : Reads line (decode line) := by
  show Reads line (ofWords (valueOf line) (wordsOf line))
  have unknown {ws} (same : wordsOf line = ws) (rejected : ¬ Accepted ws) :
      Reads line (.unknown ws) := by
    subst same
    exact .unknown rejected
  rcases whole : wordsOf line with _ | ⟨op, _ | ⟨a, rest⟩⟩
  · exact unknown whole (by decide)
  · exact unknown whole (by simp [Accepted])
  · have front : [op, a] <+: wordsOf line := ⟨rest, whole.symm⟩
    have unnamed (none : Resource.ofName? a = none) : ∀ r ∈ Resource.all, a ≠ r.name := by
      intro r _ h
      simp [(Resource.ofName?_eq_some_iff a r).2 h] at none
    by_cases wait : op = "semWait"
    · simp only [ofWords, if_pos wait]
      cases named : Resource.ofName? a with
      | some r =>
        obtain rfl := (Resource.ofName?_eq_some_iff a r).1 named
        exact .semWait (wait ▸ front)
      | none => exact unknown whole (by simpa [Accepted, wait] using unnamed named)
    by_cases signal : op = "semSignal"
    · simp only [ofWords, if_neg wait, if_pos signal]
      cases named : Resource.ofName? a with
      | some r =>
        obtain rfl := (Resource.ofName?_eq_some_iff a r).1 named
        exact .semSignal (signal ▸ front)
      | none => exact unknown whole (by simpa [Accepted, signal] using unnamed named)
    by_cases print : op = "print"
    · simp only [ofWords, if_neg wait, if_neg signal, if_pos print]
      exact .print (print ▸ front)
    simp only [ofWords, if_neg wait, if_neg signal, if_neg print]
    cases rest with
    | nil => exact unknown whole (by simp [Accepted, wait, signal, print])
    | cons b rest =>
      have front : [op, a, b] <+: wordsOf line := ⟨rest, whole.symm⟩
      dsimp only
      split_ifs with assign between write read
      · exact reads_assign (assign ▸ whole)
      · exact .printFromTo (between ▸ front)
      · exact .writeFile (write ▸ front)
      · exact .readFile (read ▸ front)
      · apply unknown whole
        simp [Accepted, wait, signal, print, assign, between, write, read]

theorem decode_of_not_accepted (rejected : ¬ Accepted (wordsOf line)) :
    decode line = .unknown (wordsOf line) := by
  have read := reads_decode line
  by_cases known : ∀ ws, decode line ≠ .unknown ws
  · exact absurd (read.accepted known) rejected
  · push Not at known
    obtain ⟨ws, found⟩ := known
    rw [found] at read ⊢
    cases read with
    | unknown => rfl

theorem sourceOf_of_not_file {ws : List String} (not_input : value ≠ "input")
    (not_file : ∀ path, ¬ ["readFile", path] <+: ws) : sourceOf value ws = .literal value := by
  match ws with
  | [] | [_] => simp [sourceOf, not_input]
  | first :: path :: _ =>
    have other : first ≠ "readFile" := by
      rintro rfl
      exact not_file path ⟨_, rfl⟩
    simp [sourceOf, other]

theorem Reads.decode_eq {i : Instruction} (h : Reads line i) : decode line = i := by
  have shape : decode line = ofWords (valueOf line) (wordsOf line) := rfl
  cases h with
  | @semWait r front | @semSignal r front =>
    obtain ⟨rest, whole⟩ := front
    have named := (Resource.ofName?_eq_some_iff r.name r).2 rfl
    simp [shape, ← whole, ofWords, named]
  | input whole =>
    have written := valueOf_eq_input_iff.2 (by rw [whole]; rfl)
    simp [shape, whole, written, ofWords, sourceOf]
  | @literal x value front is_value not_input not_file =>
    obtain ⟨_ | ⟨b, rest⟩, whole⟩ := front
    · have enough := is_value.three_le
      rw [← whole] at enough
      exact absurd enough (Nat.not_succ_le_self 2)
    · obtain rfl := is_value.eq
      rw [← whole] at not_file
      have source := sourceOf_of_not_file (mt valueOf_eq_input_iff.1 not_input) not_file
      rw [shape, ← whole]
      exact congrArg (Instruction.assign x) source
  | file front | print front | printFromTo front | writeFile front | readFile front =>
    obtain ⟨rest, whole⟩ := front
    simp [shape, ← whole, ofWords, sourceOf]
  | unknown rejected => exact decode_of_not_accepted rejected

theorem decode_eq_iff {i : Instruction} : decode line = i ↔ Reads line i :=
  ⟨fun h => h ▸ reads_decode line, Reads.decode_eq⟩

theorem decode_eq_unknown_iff : (∃ ws, decode line = .unknown ws) ↔ ¬ Accepted (wordsOf line) := by
  constructor
  · rintro ⟨ws, found⟩
    cases decode_eq_iff.1 found with
    | unknown rejected => exact rejected
  · exact fun rejected => ⟨_, decode_of_not_accepted rejected⟩

/-- A line stands for the instruction that its words give. It is a known one if the words are
accepted, and otherwise the unknown one with all of them. No word is empty or holds a blank. If there
are three words, the line split at the first two blanks only has a third item, and that item is the
only end of the line that an assignment can take for its value. -/
theorem decode_grammar (line : String) :
    (∀ i, decode line = i ↔ Reads line i)
      ∧ ((∀ ws, decode line ≠ .unknown ws) ↔ Accepted (wordsOf line))
      ∧ (∀ w ∈ wordsOf line, IsWord w.toList)
      ∧ (3 ≤ (wordsOf line).length → ∃ item,
          (splitAtMost 2 (trim line.toList))[2]? = some item.toList
            ∧ ∀ value, IsValue line value ↔ value = item) := by
  refine ⟨fun i => decode_eq_iff, ?_, fun w => isWord_of_mem_wordsOf, fun enough => ?_⟩
  · rw [← not_iff_not, ← decode_eq_unknown_iff]
    push Not
    rfl
  · refine ⟨valueOf line, getElem?_splitAtMost enough, fun value => ⟨IsValue.eq, ?_⟩⟩
    rintro rfl
    exact isValue_valueOf enough

theorem decode_grammar_spaced_value : ∃ item,
    (splitAtMost 2 (trim "  assign note two  words ".toList))[2]? = some item.toList
      ∧ ∀ value, IsValue "  assign note two  words " value ↔ value = item :=
  (decode_grammar "  assign note two  words ").2.2.2 (by decide)

end Instruction

end RoundRobin
