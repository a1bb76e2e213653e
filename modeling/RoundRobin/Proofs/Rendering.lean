import RoundRobin.Proofs.Grammar

/-!
# Lines that stand for one instruction

The line that is written for an instruction is read as that instruction again, and so is every other
line with its words that differs in the blanks between them only (`decode_layOut`). A literal value
counts as one word there, so that it keeps the blanks inside it: an assignment takes every text that
starts and ends with no blank as it stands, apart from those that name another source
(`decode_assign`).
-/

namespace RoundRobin

namespace Text

/-- Some pieces of text, each after its gap, and what follows the last. -/
def layOut (pieces : List (String × String)) (trail : String) : String :=
  pieces.foldr (fun piece rest => piece.1 ++ piece.2 ++ rest) trail

/-- The gaps before the pieces are blank, and only the first may be missing. -/
structure Gapped (pieces : List (String × String)) : Prop where
  blank : ∀ piece ∈ pieces, AllBlank piece.1.toList
  apart : ∀ piece ∈ pieces.tail, piece.1 ≠ ""

section

variable {pieces : List (String × String)} {trail : String}

theorem Gapped.tail {piece : String × String} (h : Gapped (piece :: pieces)) : Gapped pieces :=
  ⟨fun p hp => h.blank p (List.mem_cons_of_mem piece hp),
    fun p hp => h.apart p (List.mem_of_mem_tail hp)⟩

theorem parted_layOut (blank : ∀ piece ∈ pieces, AllBlank piece.1.toList)
    (apart : ∀ piece ∈ pieces, piece.1 ≠ "") (trailing : AllBlank trail.toList) :
    Parted (layOut pieces trail).toList := by
  cases pieces with
  | nil => exact trailing.parted
  | cons piece pieces =>
    have gap := apart piece List.mem_cons_self
    rw [layOut, List.foldr_cons, String.toList_append, String.toList_append, List.append_assoc]
    apply (blank piece List.mem_cons_self).parted_append
    simpa using gap

/-- The words of pieces that are kept apart are the words of each. -/
theorem wordsOf_layOut (gapped : Gapped pieces) (trailing : AllBlank trail.toList) :
    wordsOf (layOut pieces trail) = pieces.flatMap fun piece => wordsOf piece.2 := by
  induction pieces with
  | nil => simp [layOut, wordsOf, trailing.words_eq]
  | cons piece pieces ih =>
    have parted := parted_layOut gapped.tail.blank gapped.apart trailing
    have rest := ih gapped.tail
    simp only [wordsOf] at rest ⊢
    rw [layOut, List.foldr_cons, String.toList_append, String.toList_append, ← layOut,
      words_append parted, words_blank_append (gapped.blank piece List.mem_cons_self),
      List.map_append, rest, List.flatMap_cons]

/-- Words that are joined by single spaces are pieces with the spaces as their gaps. -/
theorem intercalate_eq_layOut (w : String) (ws : List String) :
    String.intercalate " " (w :: ws) = layOut (("", w) :: ws.map fun v => (" ", v)) "" := by
  induction ws generalizing w with
  | nil => simp [layOut]
  | cons u ws ih =>
    rw [String.intercalate_cons_cons, ih]
    simp [layOut, String.append_assoc]

/-- A text that starts with no blank has its first word at its start, and a gap after it if there is
another word. -/
theorem exists_gap {v first second : String} (trimmed : IsTrimmed v.toList)
    (front : [first, second] <+: wordsOf v) :
    ∃ gap more, v = first ++ gap ++ more ∧ AllBlank gap.toList ∧ gap ≠ "" ∧ more ≠ "" := by
  obtain ⟨later, whole⟩ := front
  have spaced := spaced_words v.toList
  rw [← map_toList_wordsOf, ← whole] at spaced
  generalize text : v.toList = cs at spaced
  cases spaced with
  | @word lead _ r _ leading word parted rest =>
    cases rest with
    | @word gap _ more _ blank next _ _ =>
      have no_lead : lead = [] := by
        apply leading.eq_nil (r := first.toList ++ (gap ++ second.toList ++ more))
        rw [← List.append_assoc, ← text]
        exact trimmed.head
      have some_gap : gap ≠ [] := by
        rintro rfl
        exact next.not_parted more parted
      refine ⟨String.ofList gap, String.ofList (second.toList ++ more), ?_, ?_, ?_, ?_⟩
      · apply String.toList_injective
        simp [text, no_lead]
      · rwa [String.toList_ofList]
      · simpa using some_gap
      · intro empty
        have nothing := congrArg String.toList empty
        rw [String.toList_ofList] at nothing
        exact next.ne_nil (List.append_eq_nil_iff.1 nothing).1

end

end Text

namespace Instruction

open Text

variable {line other : String}

/-- Whether an instruction assigns a value that its line gives. -/
def IsLiteral (i : Instruction) : Prop := ∃ x value, i = .assign x (.literal value)

theorem Reads.words_prefix {i : Instruction} (h : Reads line i) (plain : ¬ i.IsLiteral) :
    i.words <+: wordsOf line := by
  cases h with
  | literal => exact absurd ⟨_, _, rfl⟩ plain
  | input whole => exact whole ▸ List.prefix_refl _
  | unknown => exact List.prefix_refl _
  | semWait front | semSignal front | file front | print front | printFromTo front
  | writeFile front | readFile front => exact front

/-- A line of just the words of an instruction stands for it if some line does. -/
theorem Reads.of_words {i : Instruction} (h : Reads line i) (plain : ¬ i.IsLiteral)
    (same : wordsOf other = i.words) : Reads other i := by
  have front : i.words <+: wordsOf other := same ▸ List.prefix_refl _
  cases h with
  | literal => exact absurd ⟨_, _, rfl⟩ plain
  | input => exact .input same
  | unknown rejected =>
    rw [← show wordsOf other = wordsOf line from same] at rejected ⊢
    exact .unknown rejected
  | semWait => exact .semWait front
  | semSignal => exact .semSignal front
  | file => exact .file front
  | print => exact .print front
  | printFromTo => exact .printFromTo front
  | writeFile => exact .writeFile front
  | readFile => exact .readFile front

theorem reads_literal {g₀ g₁ g₂ trail x v : String}
    (gapped : Gapped [(g₀, "assign"), (g₁, x), (g₂, v)]) (trailing : AllBlank trail.toList)
    (word : IsWord x.toList) (trimmed : IsTrimmed v.toList) (some_char : v ≠ "")
    (not_input : wordsOf v ≠ ["input"]) (not_file : ∀ path, ¬ ["readFile", path] <+: wordsOf v) :
    Reads (layOut [(g₀, "assign"), (g₁, x), (g₂, v)] trail) (.assign x (.literal v)) := by
  have whole : wordsOf (layOut [(g₀, "assign"), (g₁, x), (g₂, v)] trail)
      = "assign" :: x :: wordsOf v := by
    rw [wordsOf_layOut gapped trailing]
    simp [word.wordsOf_eq, show wordsOf "assign" = ["assign"] from rfl]
  have later : (wordsOf (layOut [(g₀, "assign"), (g₁, x), (g₂, v)] trail)).drop 2 = wordsOf v := by
    rw [whole]
    rfl
  refine .literal ⟨wordsOf v, whole.symm⟩ ⟨some_char, trimmed, ?_, later.symm⟩ ?_ ?_
  · have last := suffix_trim trimmed (by simpa using some_char) trailing
      (g₀ ++ "assign" ++ (g₁ ++ x ++ g₂)).toList
    simpa [layOut] using last
  · rwa [later]
  · rwa [later]

/-- Blanks between the words do not change what a line stands for. -/
theorem decode_layOut {pieces : List (String × String)} {trail : String}
    (gapped : Gapped pieces) (trailing : AllBlank trail.toList)
    (same : pieces.map Prod.snd = (decode line).words) :
    decode (layOut pieces trail) = decode line := by
  have read := reads_decode line
  generalize decode line = i at read same
  apply Reads.decode_eq
  by_cases plain : i.IsLiteral
  · obtain ⟨x, v, rfl⟩ := plain
    match pieces, same with
    | [(g₀, _), (g₁, _), (g₂, _)], rfl =>
      cases read with
      | literal front is_value not_input not_file =>
        rw [← is_value.words] at not_input not_file
        refine reads_literal gapped trailing ?_ is_value.trimmed is_value.ne_empty not_input not_file
        exact isWord_of_mem_wordsOf (front.subset (by simp))
  · apply read.of_words plain
    have words : ∀ w ∈ i.words, wordsOf w = [w] := fun w hw =>
      (isWord_of_mem_wordsOf ((read.words_prefix plain).subset hw)).wordsOf_eq
    rw [wordsOf_layOut gapped trailing, ← List.flatMap_map Prod.snd, same,
      List.flatMap_congr words, List.flatMap_singleton']

theorem decode_render (line : String) : decode (decode line).render = decode line := by
  have nothing : AllBlank "".toList := AllBlank.nil
  rw [render]
  cases same : (decode line).words with
  | nil =>
    rw [show String.intercalate " " [] = layOut [] "" from rfl]
    exact decode_layOut ⟨nofun, nofun⟩ nothing same.symm
  | cons w ws =>
    rw [intercalate_eq_layOut]
    refine decode_layOut ⟨?_, ?_⟩ nothing ?_
    · intro piece hp
      rcases List.mem_cons.1 hp with rfl | hp
      · exact nothing
      · obtain ⟨v, -, rfl⟩ := List.mem_map.1 hp
        exact (by decide : AllBlank " ".toList)
    · intro piece hp
      obtain ⟨v, -, rfl⟩ := List.mem_map.1 hp
      exact (by decide : " " ≠ "")
    · simp [same, Function.comp_def]

/-- An assignment takes a text that names no other source as it stands. -/
theorem decode_assign {x v : String} (word : IsWord x.toList) (trimmed : IsTrimmed v.toList)
    (some_char : v ≠ "") (not_input : v ≠ "input")
    (not_file : ∀ gap more, AllBlank gap.toList → gap ≠ "" → more ≠ "" →
      v ≠ "readFile" ++ gap ++ more) :
    decode ("assign " ++ x ++ " " ++ v) = .assign x (.literal v) := by
  have gapped : Gapped [("", "assign"), (" ", x), (" ", v)] := by
    constructor <;> simp [AllBlank, show isBlank (Char.ofNat 32) = true from rfl]
  have shape : "assign " ++ x ++ " " ++ v = layOut [("", "assign"), (" ", x), (" ", v)] "" := by
    apply String.toList_injective
    simp [layOut]
  rw [shape]
  apply Reads.decode_eq
  apply reads_literal gapped (by decide) word trimmed some_char
  · exact fun single => not_input (eq_of_wordsOf trimmed single)
  · intro path front
    obtain ⟨gap, more, whole, blank, some_gap, some_more⟩ := exists_gap trimmed front
    exact not_file gap more blank some_gap some_more whole

/-- The instruction of a line is also that of the line written for it, and of every line that has its
words with other blanks before, between and after them. And a text that starts and ends with no blank
is the value that an assignment to any name takes, blanks inside it included, unless it is the word
`input` or starts with the word `readFile` and goes on after a gap. -/
theorem decode_stable (line : String) :
    decode (decode line).render = decode line
      ∧ (∀ pieces trail, Gapped pieces → AllBlank trail.toList →
          pieces.map Prod.snd = (decode line).words → decode (layOut pieces trail) = decode line)
      ∧ ∀ x v, IsWord x.toList → IsTrimmed v.toList → v ≠ "" → v ≠ "input" →
          (∀ gap more, AllBlank gap.toList → gap ≠ "" → more ≠ "" →
            v ≠ "readFile" ++ gap ++ more) →
          decode ("assign " ++ x ++ " " ++ v) = .assign x (.literal v) :=
  ⟨decode_render line, fun _ _ gapped trailing same => decode_layOut gapped trailing same,
    fun _ _ word trimmed some_char not_input not_file =>
      decode_assign word trimmed some_char not_input not_file⟩

theorem decode_stable_tabs :
    decode (layOut [("\t", "print"), (" \n", "x")] "\t") = .print "x"
      ∧ decode ("assign " ++ "note" ++ " " ++ "two  words") = .assign "note" (.literal "two  words") := by
  refine ⟨(decode_stable "print x").2.1 _ _ ⟨by decide, by decide⟩ (by decide) rfl, ?_⟩
  refine (decode_stable "").2.2 "note" "two  words" (by decide) (by decide) (by decide)
    (by decide) ?_
  intro gap more _ _ _ same
  simpa using congrArg (fun text => text.toList.head?) same

end Instruction

end RoundRobin
