import Mathlib.Data.List.TakeWhile
import RoundRobin.Proofs.Encoding

/-!
# Reading in chunks

It does not matter for a text in which chunks its bytes are read. A chunk that ends within a character
gives the characters before it and keeps the bytes that it has of it (`decodeFrom_of_append`), so what
was kept, together with the chunks that are left, is always the text that is left (`readChunks_encode`).
The first line is known as soon as it is complete (`head?_lines_append`), so a reader that stops there
has read the first of the lines (`readFirstLine_of_readLines`).
-/

namespace RoundRobin.Text

/-! ### Chunks of bytes -/

theorem flatten_extendFirst {α : Type} (a : α) (ls : List (List α)) :
    (extendFirst a ls).flatten = a :: ls.flatten := by
  cases ls <;> rfl

theorem flatten_chunksFrom (room : Nat) (bytes : Bytes) : (chunksFrom room bytes).flatten = bytes := by
  induction bytes generalizing room with
  | nil => cases room <;> rfl
  | cons b r ih =>
    cases room with
    | zero => rw [chunksFrom, List.flatten_cons, List.nil_append, flatten_extendFirst, ih]
    | succ room => rw [chunksFrom, flatten_extendFirst, ih]

theorem flatten_chunks (bytes : Bytes) : (chunks bytes).flatten = bytes :=
  flatten_chunksFrom chunkSize bytes

/-- Of the bytes of a text that is read up to some place, the first characters are read and the bytes
from some position on are kept; these and the rest are the characters that are left. -/
theorem decodeFrom_of_append {begun left : Bytes} {cs : List Char} (split : begun ++ left = encode cs)
    (position : Nat) : ∃ later, cs = (decodeFrom position begun).chars ++ later ∧
      match (decodeFrom position begun).flaw with
      | none => left = encode later
      | some f => f.awaitsMore ∧ ∃ n, f.position = position + n ∧
          begun.drop n ++ left = encode later := by
  induction cs generalizing position begun with
  | nil =>
    obtain ⟨rfl, rfl⟩ := List.append_eq_nil_iff.1 split
    exact ⟨[], rfl, rfl⟩
  | cons c r ih =>
    have bytes : encode (c :: r) = String.utf8EncodeChar c ++ encode r := List.flatMap_cons
    rw [bytes] at split
    -- the first character is read whole, or the bytes end before it or within it
    rcases List.append_eq_append_iff.1 split with ⟨missing, whole, rest⟩ | ⟨more, rfl, rest⟩
    · by_cases complete : missing = []
      · subst complete
        rw [List.append_nil] at whole
        rw [List.nil_append] at rest
        have read := decodeFrom_encodeChar position c []
        rw [List.append_nil, whole] at read
        rw [read]
        exact ⟨r, congrArg₂ List.cons (Char.ofNat_toNat c).symm rfl, rest⟩
      · by_cases nothing : begun = []
        · subst nothing
          exact ⟨c :: r, rfl, split.trans bytes.symm⟩
        · rw [(shape_encodeChar c).decodeFrom_cut position whole nothing complete]
          exact ⟨c :: r, rfl, rfl, 0, rfl, split.trans bytes.symm⟩
    · obtain ⟨later, eq, kept⟩ := ih rest.symm (position + (String.utf8EncodeChar c).length)
      rw [decodeFrom_encodeChar]
      refine ⟨later, congrArg₂ List.cons (Char.ofNat_toNat c).symm eq, ?_⟩
      dsimp only [Decoded.prepend]
      split at kept
      · exact kept
      · obtain ⟨awaits, n, at_n, kept⟩ := kept
        refine ⟨awaits, (String.utf8EncodeChar c).length + n, by omega, ?_⟩
        rwa [← List.drop_drop, List.drop_left]

/-- A chunk of a text gives the next characters. -/
theorem feed_of_append {kept chunk left : Bytes} {cs : List Char}
    (split : kept ++ chunk ++ left = encode cs) : ∃ gained kept' later,
      feed kept chunk = .ok (gained, kept') ∧ cs = gained ++ later ∧ kept' ++ left = encode later := by
  obtain ⟨later, eq, rest⟩ := decodeFrom_of_append split 0
  unfold feed decode
  dsimp only
  cases stopped : (decodeFrom 0 (kept ++ chunk)).flaw with
  | none =>
    rw [stopped] at rest
    exact ⟨_, [], later, rfl, eq, rest⟩
  | some f =>
    rw [stopped] at rest
    obtain ⟨awaits, n, at_n, rest⟩ := rest
    refine ⟨_, _, later, if_pos awaits, eq, ?_⟩
    rwa [at_n, Nat.zero_add]

theorem readChunks_encode {kept : Bytes} {cks : List Bytes} {cs : List Char}
    (split : kept ++ cks.flatten = encode cs) : readChunks kept cks = .ok cs := by
  induction cks generalizing kept cs with
  | nil =>
    rw [List.flatten_nil, List.append_nil] at split
    rw [readChunks, split, readWhole_encode]
  | cons chunk rest ih =>
    rw [List.flatten_cons, ← List.append_assoc] at split
    obtain ⟨gained, kept', later, fed, rfl, split'⟩ := feed_of_append split
    rw [readChunks, fed]
    simp only [bind, Except.bind, ih split', pure, Except.pure]

theorem readLines_encode (cs : List Char) : readLines (encode cs) = .ok (lines cs) := by
  have read := readChunks_encode (List.nil_append _ |>.trans (flatten_chunks (encode cs)))
  simp only [readLines, read, bind, Except.bind, pure, Except.pure]

/-! ### The first line -/

/-- The first line goes up to the first character that ends a line. -/
theorem head?_lines {cs : List Char} (complete : cs.any isLineEnd) :
    (lines cs).head? = some (cs.takeWhile fun c => !isLineEnd c) := by
  induction cs with
  | nil => cases complete
  | cons c r ih =>
    unfold lines linesAfter
    by_cases feeds : c = '\n'
    · simp [feeds, isLineEnd]
    · by_cases returns : c = '\r'
      · simp [returns, isLineEnd]
      · have plain : isLineEnd c = false := by simp [isLineEnd, feeds, returns]
        rw [List.any_cons, plain, Bool.false_or] at complete
        have first := ih complete
        unfold lines at first
        rw [if_neg feeds, if_neg returns, List.takeWhile_cons_of_pos (by rw [plain]; rfl)]
        cases rest : linesAfter false r with
        | nil =>
          rw [rest] at first
          cases first
        | cons l later =>
          rw [rest] at first
          cases first
          rfl

/-- A line that is complete stays the first one, whatever follows. -/
theorem head?_lines_append {cs : List Char} (complete : hasCompleteLine cs) (later : List Char) :
    (lines (cs ++ later)).head? = (lines cs).head? := by
  have ended : cs.any isLineEnd := by
    unfold hasCompleteLine at complete
    split at complete
    · obtain ⟨c, hc, ends⟩ := List.any_eq_true.1 complete
      exact List.any_eq_true.2 ⟨c, List.dropLast_subset cs hc, ends⟩
    · exact complete
  have ended' : (cs ++ later).any isLineEnd := by rw [List.any_append, ended, Bool.true_or]
  rw [head?_lines ended, head?_lines ended', List.takeWhile_append, if_neg]
  intro all
  obtain ⟨c, hc, ends⟩ := List.any_eq_true.1 ended
  have same : cs.takeWhile (fun c => !isLineEnd c) = cs :=
    (List.takeWhile_prefix _).eq_of_length all
  have plain := List.mem_takeWhile_imp (same.symm ▸ hc)
  rw [ends] at plain
  cases plain

theorem readFirstFrom_of_readChunks {known : List Char} {kept : Bytes} {cks : List Bytes}
    {cs : List Char} (read : readChunks kept cks = .ok cs) :
    readFirstFrom known kept cks = .ok (lines (known ++ cs)).head? := by
  induction cks generalizing known kept cs with
  | nil =>
    rw [readChunks] at read
    rw [readFirstFrom, read]
    rfl
  | cons chunk rest ih =>
    rw [readChunks] at read
    rw [readFirstFrom]
    cases fed : feed kept chunk with
    | error f =>
      rw [fed] at read
      cases read
    | ok result =>
      obtain ⟨gained, kept'⟩ := result
      rw [fed] at read
      cases later : readChunks kept' rest with
      | error f =>
        simp only [bind, Except.bind, later] at read
        cases read
      | ok text =>
        simp only [bind, Except.bind, later, pure, Except.pure, Except.ok.injEq] at read
        subst read
        simp only [bind, Except.bind, pure, Except.pure]
        rw [← List.append_assoc]
        split
        · rename_i complete
          rw [head?_lines_append complete]
        · exact ih later

/-- A file that can be read line by line has as its first line the first of its lines. -/
theorem readFirstLine_of_readLines {bytes : Bytes} {ls : List (List Char)}
    (read : readLines bytes = .ok ls) : readFirstLine bytes = .ok ls.head? := by
  cases text : readChunks [] (chunks bytes) with
  | error f =>
    simp only [readLines, text, bind, Except.bind] at read
    cases read
  | ok cs =>
    simp only [readLines, text, bind, Except.bind, pure, Except.pure, Except.ok.injEq] at read
    subst read
    exact readFirstFrom_of_readChunks text

theorem readFirstLine_encode (cs : List Char) : readFirstLine (encode cs) = .ok (lines cs).head? :=
  readFirstLine_of_readLines (readLines_encode cs)

end RoundRobin.Text
