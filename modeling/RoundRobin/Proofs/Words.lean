import Mathlib.Data.List.DropRight
import RoundRobin.Proofs.Decode

/-!
# Words and the blanks between them

The words of a text are the only words that it can be put together from with blanks before, between
and after them (`words_eq_iff`), and what stands between the outer blanks of a text is the only part of
it that starts and ends with no blank and has nothing but blanks around it (`trim_append`). What
follows the first words of a text is found by going over them (`afterWords_append`), and it is the last
item if the text is split at its first blanks only (`splitAtMost`).
-/

namespace RoundRobin.Text

/-- Nothing but blanks. -/
def AllBlank (b : List Char) : Prop := ∀ c ∈ b, isBlank c = true

instance (b : List Char) : Decidable (AllBlank b) := List.decidableBAll _ b

/-- Some characters, none of which is blank. -/
@[mk_iff]
structure IsWord (w : List Char) : Prop where
  ne_nil : w ≠ []
  solid : ∀ c ∈ w, isBlank c = false

instance (w : List Char) : Decidable (IsWord w) :=
  decidable_of_iff (w ≠ [] ∧ (w.all fun c => !isBlank c) = true) (by simp [isWord_iff])

/-- A text with which a word before it does not go on. -/
def Parted (r : List Char) : Prop := ∀ c ∈ r.head?, isBlank c = true

/-- A text without blanks at its start and at its end. -/
@[mk_iff]
structure IsTrimmed (v : List Char) : Prop where
  head : ∀ c ∈ v.head?, isBlank c = false
  last : ∀ c ∈ v.getLast?, isBlank c = false

instance (v : List Char) : Decidable (IsTrimmed v) :=
  decidable_of_iff
    ((v.head?.all fun c => !isBlank c) = true ∧ (v.getLast?.all fun c => !isBlank c) = true)
    (by simp [isTrimmed_iff, Option.all_eq_true])

/-- A text that consists of some words with blanks before, between and after them. -/
inductive Spaced : List (List Char) → List Char → Prop where
  | blank {b : List Char} (blank : AllBlank b) : Spaced [] b
  | word {b w r : List Char} {ws : List (List Char)} (blank : AllBlank b) (word : IsWord w)
    (parted : Parted r) (rest : Spaced ws r) : Spaced (w :: ws) (b ++ w ++ r)

theorem AllBlank.nil : AllBlank [] := fun _ hc => absurd hc List.not_mem_nil

theorem AllBlank.parted {b : List Char} (h : AllBlank b) : Parted b := fun c hc =>
  h c (List.mem_of_mem_head? hc)

/-- A gap keeps what follows it from a word before it. -/
theorem AllBlank.parted_append {b : List Char} (h : AllBlank b) (some_blank : b ≠ [])
    (r : List Char) : Parted (b ++ r) := by
  intro c hc
  rw [List.head?_append_of_ne_nil b some_blank] at hc
  exact h.parted c hc

/-- No blanks stand before a text that starts with no blank. -/
theorem AllBlank.eq_nil {b r : List Char} (h : AllBlank b)
    (head : ∀ c ∈ (b ++ r).head?, isBlank c = false) : b = [] := by
  cases b with
  | nil => rfl
  | cons c b => exact absurd (h c List.mem_cons_self) (by simp [head c rfl])

theorem IsWord.not_parted {w : List Char} (h : IsWord w) (r : List Char) : ¬ Parted (w ++ r) := by
  intro parted
  obtain ⟨c, w, rfl⟩ := List.exists_cons_of_ne_nil h.ne_nil
  exact absurd (parted c rfl) (by simp [h.solid c List.mem_cons_self])

theorem IsWord.isTrimmed {w : List Char} (h : IsWord w) : IsTrimmed w :=
  ⟨fun c hc => h.solid c (List.mem_of_mem_head? hc),
    fun c hc => h.solid c (List.mem_of_mem_getLast? hc)⟩

/-! ### The words of a text -/

section

variable {b w r cs : List Char} {ws : List (List Char)}

theorem words_blank_append (blank : AllBlank b) (cs : List Char) : words (b ++ cs) = words cs := by
  induction b with
  | nil => rfl
  | cons c b ih =>
    rw [List.cons_append, words_cons_blank (blank c List.mem_cons_self)]
    exact ih fun d hd => blank d (List.mem_cons_of_mem c hd)

theorem splitWords_of_parted (parted : Parted r) : (splitWords r).1 = [] := by
  cases r with
  | nil => rfl
  | cons c r => simp [splitWords, parted c rfl]

theorem splitWords_append (solid : ∀ c ∈ w, isBlank c = false) (r : List Char) :
    splitWords (w ++ r) = (w ++ (splitWords r).1, (splitWords r).2) := by
  induction w with
  | nil => rfl
  | cons c w ih =>
    have rest := ih fun d hd => solid d (List.mem_cons_of_mem c hd)
    simp [splitWords, rest, solid c List.mem_cons_self]

theorem words_word_append (word : IsWord w) (parted : Parted r) :
    words (w ++ r) = w :: words r := by
  simp [words, splitWords_append word.solid, splitWords_of_parted parted, word.ne_nil]

theorem Spaced.words_eq (h : Spaced ws cs) : words cs = ws := by
  induction h with
  | @blank b blank =>
    have nothing := words_blank_append blank []
    rwa [List.append_nil] at nothing
  | word blank word parted _ ih =>
    rw [List.append_assoc, words_blank_append blank, words_word_append word parted, ih]

theorem Spaced.cons_blank (h : Spaced ws cs) {c : Char} (hc : isBlank c = true) :
    Spaced ws (c :: cs) := by
  have front : ∀ {b}, AllBlank b → AllBlank (c :: b) := by
    intro b blank d hd
    rcases List.mem_cons.1 hd with rfl | hd
    · exact hc
    · exact blank d hd
  cases h with
  | blank blank => exact .blank (front blank)
  | word blank word parted rest => exact .word (front blank) word parted rest

theorem Spaced.blank_append (h : Spaced ws cs) {lead : List Char} (leading : AllBlank lead) :
    Spaced ws (lead ++ cs) := by
  induction lead with
  | nil => exact h
  | cons c lead ih =>
    have rest := ih fun d hd => leading d (List.mem_cons_of_mem c hd)
    exact rest.cons_blank (leading c List.mem_cons_self)

theorem Parted.append {s : List Char} (h : Parted r) (next : Parted s) : Parted (r ++ s) := by
  cases r with
  | nil => exact next
  | cons c r => exact h

/-- A text that does not go on with the last word of a text before it only adds its own words. -/
theorem Spaced.append {us : List (List Char)} {s : List Char} (h : Spaced ws cs)
    (next : Spaced us s) (apart : Parted s) : Spaced (ws ++ us) (cs ++ s) := by
  induction h with
  | blank blank => exact next.blank_append blank
  | word blank word parted rest ih =>
    rw [List.append_assoc]
    exact .word blank word (parted.append apart) ih

/-- What follows the first run of a text consists of the later words. -/
theorem exists_spaced_splitWords (cs : List Char) :
    ∃ r, cs = (splitWords cs).1 ++ r ∧ Parted r ∧ Spaced (splitWords cs).2 r := by
  induction cs with
  | nil => exact ⟨[], rfl, nofun, .blank .nil⟩
  | cons c rest ih =>
    obtain ⟨r, whole, parted, spaced⟩ := ih
    cases hc : isBlank c with
    | false =>
      refine ⟨r, ?_, parted, ?_⟩
      · simp [splitWords, hc, ← whole]
      · simpa [splitWords, hc] using spaced
    | true =>
      refine ⟨c :: rest, by simp [splitWords, hc], by simp [Parted, hc], ?_⟩
      by_cases run : (splitWords rest).1 = []
      · rw [run, List.nil_append] at whole
        subst whole
        simpa [splitWords, hc, run] using spaced.cons_blank hc
      · have word : IsWord (splitWords rest).1 := ⟨run, (splitWords_spec rest).1⟩
        have blank : AllBlank [c] := by simp [AllBlank, hc]
        have whole' := Spaced.word blank word parted spaced
        rw [List.append_assoc, ← whole] at whole'
        simpa [splitWords, hc, run] using whole'

theorem spaced_words (cs : List Char) : Spaced (words cs) cs := by
  obtain ⟨r, whole, parted, spaced⟩ := exists_spaced_splitWords cs
  by_cases run : (splitWords cs).1 = []
  · rw [run, List.nil_append] at whole
    simpa [words, run, ← whole] using spaced
  · have word : IsWord (splitWords cs).1 := ⟨run, (splitWords_spec cs).1⟩
    have whole' := Spaced.word .nil word parted spaced
    rw [List.nil_append, ← whole] at whole'
    simpa [words, run] using whole'

/-- The words of a text are those that it consists of, with blanks. -/
theorem words_eq_iff : words cs = ws ↔ Spaced ws cs :=
  ⟨fun h => h ▸ spaced_words cs, Spaced.words_eq⟩

theorem words_append (apart : Parted r) (cs : List Char) : words (cs ++ r) = words cs ++ words r :=
  ((spaced_words cs).append (spaced_words r) apart).words_eq

theorem AllBlank.words_eq (blank : AllBlank b) : words b = [] :=
  (Spaced.blank blank).words_eq

theorem AllBlank.filter_eq_nil (blank : AllBlank b) : b.filter (fun c => !isBlank c) = [] :=
  List.filter_eq_nil_iff.2 fun c hc => by simp [blank c hc]

theorem Spaced.flatten_eq (h : Spaced ws cs) : ws.flatten = cs.filter fun c => !isBlank c := by
  induction h with
  | blank blank => exact blank.filter_eq_nil.symm
  | @word b w r ws blank word parted rest ih =>
    have kept : w.filter (fun c => !isBlank c) = w :=
      List.filter_eq_self.2 fun c hc => by simp [word.solid c hc]
    rw [List.filter_append, List.filter_append, blank.filter_eq_nil, kept, List.flatten_cons, ih]
    rfl

/-- The words of a text in a row are the text without its blanks. -/
theorem flatten_words (cs : List Char) : (words cs).flatten = cs.filter fun c => !isBlank c :=
  (spaced_words cs).flatten_eq

theorem isWord_of_mem_words {w : List Char} (hw : w ∈ words cs) : IsWord w :=
  ⟨ne_nil_of_mem_words hw, fun _ hc => not_isBlank_of_mem_words hw hc⟩

end

/-! ### What stands between the outer blanks -/

section

variable {b v cs lead trail : List Char}

theorem trimLeft_append (blank : AllBlank b) (cs : List Char) :
    trimLeft (b ++ cs) = trimLeft cs :=
  List.dropWhile_append_of_pos blank

theorem AllBlank.trimLeft_eq_nil (blank : AllBlank b) : trimLeft b = [] :=
  List.dropWhile_eq_nil_iff.2 blank

theorem words_trimLeft (cs : List Char) : words (trimLeft cs) = words cs := by
  have blank : AllBlank (cs.takeWhile isBlank) := fun c hc => List.mem_takeWhile_imp hc
  have same := words_blank_append blank (trimLeft cs)
  rwa [trimLeft, List.takeWhile_append_dropWhile, eq_comm] at same

theorem head_trimLeft (cs : List Char) : ∀ c ∈ (trimLeft cs).head?, isBlank c = false := by
  intro c hc
  have stop := List.head?_dropWhile_not isBlank cs
  rw [show (cs.dropWhile isBlank).head? = some c from hc] at stop
  simpa using stop

theorem trimLeft_eq_self (head : ∀ c ∈ v.head?, isBlank c = false) : trimLeft v = v := by
  cases v with
  | nil => rfl
  | cons c v => exact trimLeft_cons_of_not (head c rfl) v

theorem dropEndWhile_eq_rdropWhile (p : Char → Bool) (cs : List Char) :
    dropEndWhile p cs = cs.rdropWhile p := by
  induction cs with
  | nil => rfl
  | cons c r ih =>
    rw [List.rdropWhile, List.reverse_cons, List.dropWhile_append]
    simp only [dropEndWhile, ih, List.rdropWhile, List.isEmpty_reverse]
    by_cases nothing : r.reverse.dropWhile p = []
    · cases hc : p c <;> simp [nothing, List.dropWhile, hc]
    · have some_kept : (r.reverse.dropWhile p).isEmpty = false := by simpa using nothing
      simp [some_kept]

theorem trimRight_append (blank : AllBlank b) (cs : List Char) :
    trimRight (cs ++ b) = trimRight cs := by
  have back : ∀ c ∈ b.reverse, isBlank c = true := fun c hc => blank c (List.mem_reverse.1 hc)
  rw [trimRight, trimRight, dropEndWhile_eq_rdropWhile, dropEndWhile_eq_rdropWhile,
    List.rdropWhile, List.rdropWhile, List.reverse_append, List.dropWhile_append_of_pos back]

theorem trimRight_eq_self (last : ∀ c ∈ v.getLast?, isBlank c = false) : trimRight v = v := by
  rw [trimRight, dropEndWhile_eq_rdropWhile, List.rdropWhile_eq_self_iff]
  intro some_char
  simp [last _ (List.getLast?_eq_some_getLast some_char)]

/-- Nothing but what a text has between its outer blanks starts and ends with no blank and has only
blanks around it. -/
theorem trim_append (blank : AllBlank lead) (trailing : AllBlank trail) (whole : IsTrimmed v) :
    trim (lead ++ v ++ trail) = v := by
  rw [trim, List.append_assoc, trimLeft_append blank]
  cases v with
  | nil =>
    rw [List.nil_append, trailing.trimLeft_eq_nil]
    rfl
  | cons c v =>
    rw [List.cons_append, trimLeft_cons_of_not (whole.head c rfl), ← List.cons_append,
      trimRight_append trailing, trimRight_eq_self whole.last]

/-- A text that starts and ends with no blank is not cut if it stands last. -/
theorem suffix_trim (whole : IsTrimmed v) (some_char : v ≠ []) (trailing : AllBlank trail)
    (front : List Char) : v <:+ trim (front ++ v ++ trail) := by
  have last : ∀ f : List Char, trimRight (f ++ (v ++ trail)) = f ++ v := by
    intro f
    rw [← List.append_assoc, trimRight_append trailing]
    apply trimRight_eq_self
    rw [List.getLast?_append_of_ne_nil f some_char]
    exact whole.last
  have start : trimLeft (v ++ trail) = v ++ trail := by
    apply trimLeft_eq_self
    rw [List.head?_append_of_ne_nil v some_char]
    exact whole.head
  have cut : (front ++ (v ++ trail)).dropWhile isBlank = _ := List.dropWhile_append
  rw [trim, List.append_assoc, trimLeft, cut]
  split_ifs with blank
  · rw [show (v ++ trail).dropWhile isBlank = [] ++ (v ++ trail) from start, last]
    exact List.suffix_append [] v
  · rw [last]
    exact List.suffix_append _ v

theorem exists_trim (cs : List Char) :
    ∃ lead trail, AllBlank lead ∧ AllBlank trail ∧ cs = lead ++ trim cs ++ trail := by
  refine ⟨cs.takeWhile isBlank, (trimLeft cs).rtakeWhile isBlank, ?_, ?_, ?_⟩
  · exact fun c hc => List.mem_takeWhile_imp hc
  · exact fun c hc => List.mem_rtakeWhile_imp hc
  · rw [trim, trimRight, dropEndWhile_eq_rdropWhile, List.append_assoc,
      List.rdropWhile_append_rtakeWhile, trimLeft, List.takeWhile_append_dropWhile]

theorem isTrimmed_trim (cs : List Char) : IsTrimmed (trim cs) := by
  have shape : trim cs = (trimLeft cs).rdropWhile isBlank := dropEndWhile_eq_rdropWhile _ _
  constructor
  · intro c hc
    apply head_trimLeft cs
    rw [shape] at hc
    obtain ⟨t, ht⟩ := List.rdropWhile_prefix isBlank (trimLeft cs)
    rw [← ht, List.head?_append, hc]
    rfl
  · intro c hc
    rw [shape] at hc
    obtain ⟨some_char, rfl⟩ := List.mem_getLast?_eq_getLast hc
    simpa using List.rdropWhile_last_not isBlank (trimLeft cs) some_char

theorem words_append_blank (trailing : AllBlank trail) (cs : List Char) :
    words (cs ++ trail) = words cs := by
  rw [words_append trailing.parted, trailing.words_eq, List.append_nil]

theorem words_trim (cs : List Char) : words (trim cs) = words cs := by
  obtain ⟨lead, trail, blank, trailing, whole⟩ := exists_trim cs
  conv_rhs => rw [whole]
  rw [List.append_assoc, words_blank_append blank, words_append_blank trailing]

/-- A text that starts with no blank and has no words is empty. -/
theorem IsTrimmed.eq_nil (h : IsTrimmed v) (none : words v = []) : v = [] := by
  cases words_eq_iff.1 none with
  | blank blank => exact blank.eq_nil (r := []) (by simpa using h.head)

/-- A text that starts and ends with no blank and has one word is that word. -/
theorem IsTrimmed.eq_of_words {w : List Char} (h : IsTrimmed v) (single : words v = [w]) : v = w := by
  have spaced := words_eq_iff.1 single
  cases spaced with
  | word blank word parted rest =>
    cases rest with
    | blank trailing =>
      have inner := trim_append blank trailing word.isTrimmed
      have outer := trim_append AllBlank.nil AllBlank.nil h
      simp only [List.nil_append, List.append_nil] at outer
      exact outer.symm.trans inner

theorem IsWord.words_eq {w : List Char} (h : IsWord w) : words w = [w] := by
  have alone := words_word_append h (r := []) nofun
  rwa [List.append_nil] at alone

/-- Two ends of one text that start with no blank and have the same words are one. -/
theorem eq_of_suffix_of_words {u : List Char} (hu : u <:+ cs) (hv : v <:+ cs)
    (trimmed_u : IsTrimmed u) (trimmed_v : IsTrimmed v) (same : words u = words v) : u = v := by
  -- the longer end starts with the characters that the shorter lacks, and all of those are blank
  have key : ∀ {x y : List Char}, IsTrimmed y → words x = words y → x <:+ y → x = y := by
    rintro x y trimmed_y same ⟨p, rfl⟩
    have solid := congrArg List.flatten same
    rw [flatten_words, flatten_words, List.filter_append] at solid
    have blank : AllBlank p := fun c hc => by
      simpa using List.filter_eq_nil_iff.1 (List.self_eq_append_left.1 solid) c hc
    rw [blank.eq_nil trimmed_y.head, List.nil_append]
  rcases List.suffix_or_suffix_of_suffix hu hv with shorter | shorter
  · exact key trimmed_v same shorter
  · exact (key trimmed_u same.symm shorter).symm

end

/-! ### What follows the first words -/

/-- A text taken apart at the blanks after its first `n` words only: those words and then, as one
item, all that follows. -/
def splitAtMost : Nat → List Char → List (List Char)
  | 0, cs => if (trimLeft cs).isEmpty then [] else [trimLeft cs]
  | n + 1, cs =>
    if (trimLeft cs).isEmpty then []
    else
      (trimLeft cs).takeWhile (fun c => !isBlank c)
        :: splitAtMost n ((trimLeft cs).dropWhile fun c => !isBlank c)

section

variable {b w r cs : List Char} {ws : List (List Char)}

theorem afterWords_nil (n : Nat) : afterWords n [] = [] := by
  induction n with
  | zero => rfl
  | succ n ih => exact ih

theorem afterWords_blank (blank : AllBlank b) (n : Nat) : afterWords n b = [] := by
  cases n with
  | zero => exact blank.trimLeft_eq_nil
  | succ n =>
    rw [afterWords, blank.trimLeft_eq_nil]
    exact afterWords_nil n

theorem trimLeft_word_append (blank : AllBlank b) (word : IsWord w) (r : List Char) :
    trimLeft (b ++ w ++ r) = w ++ r := by
  rw [List.append_assoc, trimLeft_append blank]
  apply trimLeft_eq_self
  rw [List.head?_append_of_ne_nil w word.ne_nil]
  exact word.isTrimmed.head

theorem dropWhile_word_append (word : IsWord w) (parted : Parted r) :
    (w ++ r).dropWhile (fun c => !isBlank c) = r := by
  rw [List.dropWhile_append_of_pos fun c hc => by simp [word.solid c hc]]
  cases r with
  | nil => rfl
  | cons c r => simp [parted c rfl]

theorem takeWhile_word_append (word : IsWord w) (parted : Parted r) :
    (w ++ r).takeWhile (fun c => !isBlank c) = w := by
  rw [List.takeWhile_append_of_pos fun c hc => by simp [word.solid c hc]]
  cases r with
  | nil => exact List.append_nil w
  | cons c r => simp [parted c rfl]

theorem afterWords_append (blank : AllBlank b) (word : IsWord w) (parted : Parted r) (n : Nat) :
    afterWords (n + 1) (b ++ w ++ r) = afterWords n r := by
  rw [afterWords, trimLeft_word_append blank word, dropWhile_word_append word parted]

theorem Spaced.words_afterWords (h : Spaced ws cs) (n : Nat) :
    words (afterWords n cs) = ws.drop n := by
  induction h generalizing n with
  | blank blank =>
    rw [afterWords_blank blank, List.drop_nil]
    rfl
  | word blank word parted rest ih =>
    cases n with
    | zero => exact (words_trimLeft _).trans (Spaced.word blank word parted rest).words_eq
    | succ n => rw [afterWords_append blank word parted, ih, List.drop_succ_cons]

/-- What follows the first words of a text consists of its later words. -/
theorem words_afterWords (n : Nat) (cs : List Char) :
    words (afterWords n cs) = (words cs).drop n :=
  (spaced_words cs).words_afterWords n

theorem afterWords_suffix (n : Nat) (cs : List Char) : afterWords n cs <:+ cs := by
  induction n generalizing cs with
  | zero => exact List.dropWhile_suffix _
  | succ n ih =>
    exact (ih _).trans ((List.dropWhile_suffix _).trans (List.dropWhile_suffix _))

theorem head_afterWords (n : Nat) (cs : List Char) :
    ∀ c ∈ (afterWords n cs).head?, isBlank c = false := by
  induction n generalizing cs with
  | zero => exact head_trimLeft cs
  | succ n ih => exact ih _

/-- What follows the first words of a text that ends with no blank does not either. -/
theorem isTrimmed_afterWords (n : Nat) (trimmed : IsTrimmed cs) : IsTrimmed (afterWords n cs) := by
  refine ⟨head_afterWords n cs, fun c hc => trimmed.last c ?_⟩
  obtain ⟨front, whole⟩ := afterWords_suffix n cs
  rw [← whole]
  exact List.mem_getLast?_append_of_mem_getLast? hc

theorem Spaced.splitAtMost_eq (h : Spaced ws cs) (n : Nat) :
    splitAtMost n cs = ws.take n ++ if n < ws.length then [afterWords n cs] else [] := by
  induction h generalizing n with
  | @blank b blank =>
    cases n <;> simp [splitAtMost, blank.trimLeft_eq_nil]
  | @word b w r ws blank word parted rest ih =>
    have start := trimLeft_word_append blank word r
    cases n with
    | zero =>
      rw [splitAtMost, afterWords, start]
      simp [word.ne_nil]
    | succ n =>
      rw [afterWords_append blank word parted, splitAtMost, start]
      simp [word.ne_nil, takeWhile_word_append word parted, dropWhile_word_append word parted, ih]

/-- The items of a text that is split at the blanks after its first words are those words and, if
there are more, what follows them. -/
theorem splitAtMost_eq (n : Nat) (cs : List Char) :
    splitAtMost n cs =
      (words cs).take n ++ if n < (words cs).length then [afterWords n cs] else [] :=
  (spaced_words cs).splitAtMost_eq n

end

end RoundRobin.Text
