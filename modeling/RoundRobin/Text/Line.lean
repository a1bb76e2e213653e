/-!
# Lines

A text is cut into lines at line feeds, at carriage returns, and at pairs of a carriage return and
a line feed; no other character ends a line. The last line need not be ended. A line is given
without what ends it, so lines hold neither line feeds nor carriage returns
(`not_isLineEnd_of_mem_lines`), and only the empty text has no lines (`lines_eq_nil_iff`).
-/

namespace RoundRobin.Text

/-- The characters that end a line. -/
def isLineEnd (c : Char) : Bool := c == '\n' || c == '\r'

/-- The lists with one more element at the start of the first one, such as the lines of a text whose
first line starts with one more character. -/
def extendFirst {α : Type} (c : α) : List (List α) → List (List α)
  | [] => [[c]]
  | first :: later => (c :: first) :: later

/-- The lines of the rest of a text; `afterReturn` tells whether a carriage return stands right
before the rest, so that a line feed at its start ends no line of its own. -/
def linesAfter : Bool → List Char → List (List Char)
  | _, [] => []
  | afterReturn, c :: r =>
    if c = '\n' then if afterReturn then linesAfter false r else [] :: linesAfter false r
    else if c = '\r' then [] :: linesAfter true r
    else extendFirst c (linesAfter false r)

/-- The lines of a text. -/
def lines (cs : List Char) : List (List Char) := linesAfter false cs

/-- The lines of a text as texts. -/
def linesOf (text : String) : List String := (lines text.toList).map String.ofList

/-! ### What lines hold -/

theorem mem_extendFirst {c : Char} {ls : List (List Char)} {l : List Char}
    (h : l ∈ extendFirst c ls) : l = [c] ∨ l ∈ ls ∨ ∃ first ∈ ls, l = c :: first := by
  cases ls with
  | nil => exact .inl (List.mem_singleton.1 h)
  | cons first later =>
    rcases List.mem_cons.1 h with rfl | h
    · exact .inr (.inr ⟨first, by simp, rfl⟩)
    · exact .inr (.inl (by simp [h]))

theorem not_isLineEnd_of_mem_linesAfter {afterReturn : Bool} {cs l : List Char}
    (hl : l ∈ linesAfter afterReturn cs) : ∀ c ∈ l, isLineEnd c = false := by
  induction cs generalizing afterReturn l with
  | nil => simp [linesAfter] at hl
  | cons c r ih =>
    unfold linesAfter at hl
    split at hl
    · split at hl
      · exact ih hl
      · rcases List.mem_cons.1 hl with rfl | hl
        · simp
        · exact ih hl
    · split at hl
      · rcases List.mem_cons.1 hl with rfl | hl
        · simp
        · exact ih hl
      · have plain : isLineEnd c = false := by simp_all [isLineEnd]
        rcases mem_extendFirst hl with rfl | hl | ⟨first, hf, rfl⟩
        · simpa using plain
        · exact ih hl
        · exact fun d hd => (List.mem_cons.1 hd).elim (fun e => e ▸ plain) (ih hf d)

theorem not_isLineEnd_of_mem_lines {cs l : List Char} (hl : l ∈ lines cs) :
    ∀ c ∈ l, isLineEnd c = false :=
  not_isLineEnd_of_mem_linesAfter hl

theorem lines_eq_nil_iff (cs : List Char) : lines cs = [] ↔ cs = [] := by
  cases cs with
  | nil => simp [lines, linesAfter]
  | cons c r =>
    simp only [lines, linesAfter, Bool.false_eq_true, if_false, reduceCtorEq, iff_false]
    split
    · simp
    · split
      · simp
      · cases linesAfter false r <;> simp [extendFirst]

end RoundRobin.Text
