/-!
# Blank characters and words

Which characters separate the words of a line, and the three ways a line is taken apart at them:
into all its words, into what stands between its outer blanks, and into what follows its first
words. All functions work on lists of characters by recursion on the list. A blank before a text
changes none of them (`words_cons_blank`, `trimLeft_cons_blank`), and words hold no blank
(`not_isBlank_of_mem_words`).
-/

namespace RoundRobin.Text

/-- The characters that separate words: the control characters for layout and for information
separation, the space, and the other spaces and line separators of Unicode. The characters of zero
width are not among them. -/
def isBlank (c : Char) : Bool :=
  (9 ≤ c.val && c.val ≤ 13) || (28 ≤ c.val && c.val ≤ 32) || c.val == 0x85 || c.val == 0xA0
    || c.val == 0x1680 || (0x2000 ≤ c.val && c.val ≤ 0x200A) || c.val == 0x2028
    || c.val == 0x2029 || c.val == 0x202F || c.val == 0x205F || c.val == 0x3000

/-- The text without the blanks it starts with. -/
def trimLeft (cs : List Char) : List Char := cs.dropWhile isBlank

/-- The text without the characters of a class that it ends with. -/
def dropEndWhile (p : Char → Bool) : List Char → List Char
  | [] => []
  | c :: r =>
    let rest := dropEndWhile p r
    if p c && rest.isEmpty then [] else c :: rest

/-- The text without the blanks it ends with. -/
def trimRight (cs : List Char) : List Char := dropEndWhile isBlank cs

/-- The text between its outer blanks. -/
def trim (cs : List Char) : List Char := trimRight (trimLeft cs)

/-- The run of other characters that a text starts with, which may be empty, and the words after
that run. -/
def splitWords : List Char → List Char × List (List Char)
  | [] => ([], [])
  | c :: r =>
    let (run, later) := splitWords r
    if isBlank c then ([], if run.isEmpty then later else run :: later) else (c :: run, later)

/-- The words of a text: its longest runs of characters that are not blank, in order. -/
def words (cs : List Char) : List (List Char) :=
  let (run, later) := splitWords cs
  if run.isEmpty then later else run :: later

/-- What follows the first `n` words and the blanks after them. -/
def afterWords : Nat → List Char → List Char
  | 0, cs => trimLeft cs
  | n + 1, cs => afterWords n ((trimLeft cs).dropWhile fun c => !isBlank c)

/-- The words of a text as texts. -/
def wordsOf (text : String) : List String := (words text.toList).map String.ofList

/-- The text between its outer blanks, as a text. -/
def trimmed (text : String) : String := String.ofList (trim text.toList)

/-! ### How blanks count -/

/-- Every character that core counts as white space separates words. -/
theorem isBlank_of_isWhitespace {c : Char} (h : c.isWhitespace = true) : isBlank c = true := by
  simp only [Char.isWhitespace, Bool.or_eq_true, decide_eq_true_eq] at h
  rcases h with ((h | h) | h) | h <;> subst h <;> decide

theorem trimLeft_cons_blank {c : Char} (h : isBlank c = true) (cs : List Char) :
    trimLeft (c :: cs) = trimLeft cs := by
  simp [trimLeft, h]

theorem trimLeft_cons_of_not {c : Char} (h : isBlank c = false) (cs : List Char) :
    trimLeft (c :: cs) = c :: cs := by
  simp [trimLeft, h]

theorem words_cons_blank {c : Char} (h : isBlank c = true) (cs : List Char) :
    words (c :: cs) = words cs := by
  simp [words, splitWords, h]

/-- Neither the first run nor a later word holds a blank, and no later word is empty. -/
theorem splitWords_spec (cs : List Char) :
    (∀ c ∈ (splitWords cs).1, isBlank c = false) ∧
      ∀ w ∈ (splitWords cs).2, w ≠ [] ∧ ∀ c ∈ w, isBlank c = false := by
  induction cs with
  | nil => simp [splitWords]
  | cons c r ih =>
    obtain ⟨run_ok, later_ok⟩ := ih
    cases h : isBlank c with
    | false =>
      simp only [splitWords, h, Bool.false_eq_true, if_false]
      exact ⟨fun d hd => (List.mem_cons.1 hd).elim (fun e => e ▸ h) (run_ok d), later_ok⟩
    | true =>
      simp only [splitWords, h, if_true]
      refine ⟨by simp, fun w hw => ?_⟩
      by_cases e : (splitWords r).1.isEmpty = true
      · rw [if_pos e] at hw
        exact later_ok w hw
      · rw [if_neg e] at hw
        rcases List.mem_cons.1 hw with rfl | hw
        · exact ⟨by simpa using e, run_ok⟩
        · exact later_ok w hw

theorem not_isBlank_of_mem_words {cs w : List Char} (hw : w ∈ words cs) {c : Char} (hc : c ∈ w) :
    isBlank c = false := by
  unfold words at hw
  by_cases e : (splitWords cs).1.isEmpty = true
  · simp only [if_pos e] at hw
    exact ((splitWords_spec cs).2 w hw).2 c hc
  · simp only [if_neg e] at hw
    rcases List.mem_cons.1 hw with rfl | hw
    · exact (splitWords_spec cs).1 c hc
    · exact ((splitWords_spec cs).2 w hw).2 c hc

end RoundRobin.Text
