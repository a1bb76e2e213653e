import RoundRobin.Proofs.Chunk
import RoundRobin.Storage

/-!
# Files of lines

A file that is written line by line, with the same ending behind every line, is read back as these
lines, whichever of the three endings it is; the last line need not be ended unless it is empty
(`Ending.lines_close`, `Ending.lines_close_append`). What else a line holds does not matter. The first
line of a file is the first of its lines, and only an empty file has none.
-/

namespace RoundRobin

namespace Text

/-- A text that fits on one line. -/
def IsLine (l : List Char) : Prop := '\n' ∉ l ∧ '\r' ∉ l

instance (l : List Char) : Decidable (IsLine l) := inferInstanceAs (Decidable (_ ∧ _))

/-- What can stand at the end of a line. -/
inductive Ending where
  | lineFeed
  | returnAndFeed
  | carriageReturn
  deriving DecidableEq, Repr

namespace Ending

def chars : Ending → List Char
  | lineFeed => ['\n']
  | returnAndFeed => ['\r', '\n']
  | carriageReturn => ['\r']

/-- The text of some lines, each of them ended. -/
def close (e : Ending) (ls : List (List Char)) : List Char := ls.flatMap fun l => l ++ e.chars

end Ending

/-! ### Lines of a text that is put together from lines -/

variable {l rest : List Char} {ls : List (List Char)} {e : Ending}

theorem foldr_extendFirst_cons (l first : List Char) (later : List (List Char)) :
    l.foldr extendFirst (first :: later) = (l ++ first) :: later := by
  induction l with
  | nil => rfl
  | cons c r ih => rw [List.foldr_cons, ih, extendFirst, List.cons_append]

theorem foldr_extendFirst_nil (some_char : l ≠ []) : l.foldr extendFirst [] = [l] := by
  obtain ⟨r, c, rfl⟩ := List.eq_nil_or_concat l |>.resolve_left some_char
  rw [List.concat_eq_append, List.foldr_append]
  exact foldr_extendFirst_cons r [c] []

/-- The characters of a line extend the first line of what follows. -/
theorem IsLine.linesAfter_append (h : IsLine l) (rest : List Char) :
    linesAfter false (l ++ rest) = l.foldr extendFirst (linesAfter false rest) := by
  induction l with
  | nil => rfl
  | cons c r ih =>
    obtain ⟨feed, ret⟩ := h
    rw [List.mem_cons, not_or] at feed ret
    rw [List.cons_append, linesAfter, if_neg (Ne.symm feed.1), if_neg (Ne.symm ret.1), ih ⟨feed.2, ret.2⟩]
    rfl

/-- A carriage return before a text shows only if a line feed stands at the start of the text. -/
theorem linesAfter_true {cs : List Char} (other : cs.head? ≠ some '\n') :
    linesAfter true cs = linesAfter false cs := by
  cases cs with
  | nil => rfl
  | cons c r =>
    have plain : c ≠ '\n' := fun same => other (congrArg some same)
    rw [linesAfter, linesAfter, if_neg plain, if_neg plain]

theorem IsLine.linesAfter_eq (h : IsLine l) (some_char : l ≠ []) (afterReturn : Bool) :
    linesAfter afterReturn l = [l] := by
  have open_line : linesAfter false l = [l] := by
    have whole := h.linesAfter_append []
    rwa [List.append_nil, show linesAfter false [] = [] from rfl, foldr_extendFirst_nil some_char]
      at whole
  cases afterReturn with
  | false => exact open_line
  | true =>
    rw [linesAfter_true, open_line]
    exact fun feed => h.1 (List.mem_of_head? feed)

namespace Ending

/-- An ended line comes first, and then the lines of what follows it. -/
theorem linesAfter_append (e : Ending) (line : IsLine l) (rest : List Char) :
    linesAfter false (l ++ e.chars ++ rest)
      = l :: linesAfter (decide (e = .carriageReturn)) rest := by
  rw [List.append_assoc, line.linesAfter_append]
  have ended : linesAfter false (e.chars ++ rest)
      = [] :: linesAfter (decide (e = .carriageReturn)) rest := by
    cases e <;> rfl
  rw [ended, foldr_extendFirst_cons, List.append_nil]

/-- The lines that were ended come first, and then those of the rest. Only after a carriage return does
it matter what the rest starts with. -/
theorem linesAfter_close (e : Ending) (plain : ∀ l ∈ ls, IsLine l) (rest : List Char)
    (afterReturn : Bool) (same : afterReturn = true → e = .carriageReturn) :
    ∃ last, linesAfter afterReturn (e.close ls ++ rest) = ls ++ linesAfter last rest := by
  induction ls generalizing afterReturn with
  | nil => exact ⟨afterReturn, rfl⟩
  | cons l ls ih =>
    obtain ⟨line, others⟩ := List.forall_mem_cons.1 plain
    obtain ⟨last, later⟩ := ih others (decide (e = .carriageReturn)) of_decide_eq_true
    have before : linesAfter afterReturn (l ++ e.chars ++ (e.close ls ++ rest))
        = linesAfter false (l ++ e.chars ++ (e.close ls ++ rest)) := by
      cases afterReturn with
      | false => rfl
      | true =>
        cases same rfl
        refine linesAfter_true fun feed => ?_
        cases l with
        | nil => cases feed
        | cons c r => exact line.1 (by simpa using .inl (Option.some.inj feed).symm)
    refine ⟨last, ?_⟩
    rw [close, List.flatMap_cons, List.append_assoc, ← close, before, e.linesAfter_append line, later]
    rfl

/-- Lines that were ended are read back. -/
theorem lines_close (e : Ending) (plain : ∀ l ∈ ls, IsLine l) : lines (e.close ls) = ls := by
  obtain ⟨last, read⟩ := e.linesAfter_close plain [] false nofun
  rw [List.append_nil] at read
  rw [lines, read]
  exact List.append_nil ls

/-- A last line that was not ended is read back if there is anything on it. -/
theorem lines_close_append (e : Ending) (plain : ∀ l ∈ ls, IsLine l) (line : IsLine l)
    (some_char : l ≠ []) : lines (e.close ls ++ l) = ls ++ [l] := by
  obtain ⟨last, read⟩ := e.linesAfter_close plain l false nofun
  rw [lines, read, line.linesAfter_eq some_char]

end Ending

/-- A text on one line is its only line. -/
theorem IsLine.lines_eq (h : IsLine l) (some_char : l ≠ []) : lines l = [l] :=
  h.linesAfter_eq some_char false

end Text

namespace Storage

open Text

variable {s : Storage} {path : String} {cs : List Char}

/-- All lines of a file are those of its text. -/
theorem readLines_of_read (held : s.read path = .ok (encode cs)) :
    s.readLines path = .ok ((lines cs).map String.ofList) := by
  unfold readLines
  rw [held]
  simp only [bind, Except.bind, readLines_encode, pure, Except.pure]

theorem firstLine_of_read (held : s.read path = .ok (encode cs)) :
    s.firstLine path = match (lines cs).head? with
      | none => .error (.empty path)
      | some l => .ok (String.ofList l) := by
  unfold firstLine
  rw [held]
  simp only [bind, Except.bind, readFirstLine_encode]
  cases (lines cs).head? <;> rfl

theorem readText_of_read (held : s.read path = .ok (encode cs)) : s.readText path = .ok cs := by
  unfold readText
  rw [held]
  simp only [bind, Except.bind, readWhole_encode, pure, Except.pure]

/-- What the readers of lines make of the file at a path. -/
structure ReadsLines (s : Storage) (path : String) (content : Bytes) : Prop where
  /-- Lines that were all ended are read back. -/
  closed : ∀ (e : Ending) (ls : List String), (∀ l ∈ ls, IsLine l.toList) →
    content = encode (e.close (ls.map String.toList)) → s.readLines path = .ok ls
  /-- So are lines of which the last one was not ended, if there is anything on it. -/
  unclosed : ∀ (e : Ending) (ls : List String) (last : String), (∀ l ∈ ls, IsLine l.toList) →
    IsLine last.toList → last ≠ "" →
    content = encode (e.close (ls.map String.toList) ++ last.toList) →
    s.readLines path = .ok (ls ++ [last])
  /-- The file of any text has lines, and its first line is the first of them. -/
  first : ∀ cs : List Char, content = encode cs → ∃ ls, s.readLines path = .ok ls ∧
    (∀ l later, ls = l :: later → s.firstLine path = .ok l) ∧
    ((∃ fault, s.firstLine path = .error fault) ↔ content = []) ∧
    (content = [] → ls = [] ∧ s.firstLine path = .error (.empty path))

/-- Whatever lines a file was made of, and whichever of the three endings they have, they are read back
from it. The first line of a file that is a text is the first of its lines, and there is none exactly if
the file is empty. -/
theorem reads_lines {content : Bytes} (held : s.read path = .ok content) :
    s.ReadsLines path content where
  closed := by
    rintro e ls plain rfl
    have plain' : ∀ l ∈ ls.map String.toList, IsLine l := by simpa using plain
    rw [readLines_of_read held, e.lines_close plain', List.map_map]
    exact congrArg Except.ok (List.map_id'' (fun _ => String.ofList_toList) ls)
  unclosed := by
    rintro e ls last plain line some_char rfl
    have plain' : ∀ l ∈ ls.map String.toList, IsLine l := by simpa using plain
    rw [readLines_of_read held,
      e.lines_close_append plain' line (fun none => some_char (String.toList_eq_nil_iff.1 none)),
      List.map_append, List.map_map, List.map_singleton, String.ofList_toList]
    exact congrArg (fun ls => Except.ok (ls ++ [last]))
      (List.map_id'' (fun _ => String.ofList_toList) ls)
  first := by
    rintro cs rfl
    have first := firstLine_of_read held
    have nothing : encode cs = [] ↔ lines cs = [] := by
      rw [lines_eq_nil_iff]
      exact ⟨fun same => encode_inj same, fun same => same ▸ rfl⟩
    refine ⟨_, readLines_of_read held, fun l later same => ?_, ?_, fun empty => ?_⟩
    · obtain ⟨l', later', split, rfl, -⟩ := List.map_eq_cons_iff.1 same
      rw [first, split]
      rfl
    · rw [nothing, first]
      cases lines cs with
      | nil => exact ⟨fun _ => rfl, fun _ => ⟨_, rfl⟩⟩
      | cons l later => exact ⟨nofun, nofun⟩
    · rw [nothing.1 empty] at first ⊢
      exact ⟨rfl, first⟩

/-- A file of three lines, one of them empty and one with a separator of lines that ends none, with
pairs of a carriage return and a line feed between them. -/
theorem reads_lines_mixed : ∃ s : Storage,
    s.read "p" = .ok (encode "\ufeffassign x 1\r\n\r\nprint x\u2028y".toList) ∧
    s.readLines "p" = .ok ["\ufeffassign x 1", "", "print x\u2028y"] ∧
    s.firstLine "p" = .ok "\ufeffassign x 1" := by
  have held : Storage.read ⟨[(["p"], .file (encode
      "\ufeffassign x 1\r\n\r\nprint x\u2028y".toList))]⟩ "p" = .ok (encode
      "\ufeffassign x 1\r\n\r\nprint x\u2028y".toList) := by
    decide +kernel
  have reads := reads_lines held
  have ls := reads.unclosed .returnAndFeed ["\ufeffassign x 1", ""] "print x\u2028y" (by decide +kernel)
    (by decide +kernel) (by decide +kernel) (by decide +kernel)
  obtain ⟨ls', read, first, -⟩ := reads.first _ rfl
  cases ls.symm.trans read
  exact ⟨_, held, ls, first _ _ rfl⟩

end Storage

end RoundRobin
