import Mathlib.Algebra.Ring.Nat
import Mathlib.Tactic.Common
import RoundRobin.Fault
import RoundRobin.Proofs.Words

/-!
# Numerals and what they stand for

The numeral written for an integer is read back as that integer (`parse?_text`), unless it has more
digits than a numeral may have. The readers accept no such integer in the first place
(`isWritable_of_parse?`), and no integer between two that they accept is one (`isWritable_of_between`).
A text that names integers is written if all of them have numerals (`written_eq_ok_iff`).
-/

namespace RoundRobin

namespace Integer

open RoundRobin.Text

/-! ### Rows of digits -/

/-- In a row of digits of the basic alphabet every character counts. -/
theorem digits?_of_isDigit {cs : List Char} (some_char : cs ≠ []) (digits : ∀ c ∈ cs, c.isDigit) :
    digits? cs = some (cs.map fun c => c.toNat - 48) := by
  induction cs with
  | nil => exact absurd rfl some_char
  | cons c r ih =>
    have value := digitValue?_of_isDigit (digits c List.mem_cons_self)
    cases r with
    | nil => simp only [digits?, value, List.map_cons, List.map_nil]
    | cons d r =>
      have rest := ih (List.cons_ne_nil d r) fun e he => digits e (List.mem_cons_of_mem c he)
      have no_gap : d ≠ '_' := fun gap =>
        absurd (digits d (List.mem_cons_of_mem c List.mem_cons_self)) (gap ▸ by decide)
      rw [digits?, value]
      dsimp only
      rw [if_neg no_gap, rest]
      rfl

theorem ofDigits_map (cs : List Char) :
    ofDigits (cs.map fun c => c.toNat - 48) = Nat.ofDigitChars 10 cs 0 := by
  rw [ofDigits, List.foldl_map, Nat.ofDigitChars_eq_foldl]
  rfl

theorem ofDigits_concat (ds : List Nat) (d : Nat) : ofDigits (ds ++ [d]) = 10 * ofDigits ds + d := by
  simp [ofDigits]

/-- A row of digits stands for a number with no more digits. -/
theorem ofDigits_lt {ds : List Nat} (digits : ∀ d ∈ ds, d < 10) : ofDigits ds < 10 ^ ds.length := by
  induction ds using List.reverseRecOn with
  | nil => exact Nat.one_pos
  | append_singleton ds d ih =>
    have front := ih fun e he => digits e (List.mem_append_left _ he)
    have last := digits d (by simp)
    rw [ofDigits_concat, List.length_append, List.length_singleton, Nat.pow_succ]
    omega

/-! ### Numerals without margins -/

theorem not_isMargin_of_isDigit {c : Char} (digit : c.isDigit) : isMargin c = false := by
  have low : 48 ≤ c.val.toNat ∧ c.val.toNat ≤ 57 := by
    simpa [Char.isDigit, UInt32.le_iff_toNat_le] using digit
  have plain : isBlank c = false := by
    simp only [isBlank, Bool.or_eq_false_iff, Bool.and_eq_false_iff, decide_eq_false_iff_not,
      beq_eq_false_iff_ne, ne_eq, UInt32.le_iff_toNat_le, ← UInt32.toNat_inj, UInt32.reduceToNat]
    omega
  rw [isMargin, plain, Bool.false_and]

theorem trim_eq_self {cs : List Char} (plain : ∀ c ∈ cs, isMargin c = false) :
    dropEndWhile isMargin (cs.dropWhile isMargin) = cs := by
  have front : cs.dropWhile isMargin = cs :=
    List.dropWhile_eq_self_iff.2 fun _ => by simp [plain _ (List.getElem_mem _)]
  rw [front, dropEndWhile_eq_rdropWhile]
  exact List.rdropWhile_eq_self_iff.2 fun _ => by simp [plain _ (List.getLast_mem _)]

theorem isDigit_of_mem_toDigits {n : Nat} {c : Char} (hc : c ∈ Nat.toDigits 10 n) : c.isDigit :=
  Nat.isDigit_of_mem_toDigits (by decide) (by decide) hc

/-- A row of digits without a sign has none. -/
theorem splitSign_toDigits (n : Nat) : splitSign (Nat.toDigits 10 n) = (false, Nat.toDigits 10 n) := by
  have digits : ∀ c ∈ Nat.toDigits 10 n, c.isDigit := fun c hc => isDigit_of_mem_toDigits hc
  cases split : Nat.toDigits 10 n with
  | nil => rfl
  | cons c r =>
    have digit := digits c (split ▸ List.mem_cons_self)
    have no_minus : c ≠ '-' := fun same => absurd digit (same ▸ by decide)
    have no_plus : c ≠ '+' := fun same => absurd digit (same ▸ by decide)
    rw [splitSign, if_neg no_minus, if_neg no_plus]

theorem digits?_toDigits (n : Nat) : ∃ ds, digits? (Nat.toDigits 10 n) = some ds ∧
    ds.length = (Nat.toDigits 10 n).length ∧ ofDigits ds = n :=
  ⟨_, digits?_of_isDigit Nat.toDigits_ne_nil fun _ hc => isDigit_of_mem_toDigits hc,
    List.length_map _, (ofDigits_map _).trans (Nat.ofDigitChars_toDigits (by decide) (by decide))⟩

/-- The numeral of an integer holds nothing that stands around numerals. -/
theorem not_isMargin_of_mem_text {n : Int} {c : Char} (hc : c ∈ (text n).toList) :
    isMargin c = false := by
  unfold text at hc
  split at hc
  · rw [String.toList_ofList] at hc
    rcases List.mem_cons.1 hc with rfl | hc
    · decide
    · exact not_isMargin_of_isDigit (isDigit_of_mem_toDigits hc)
  · rw [String.toList_ofList] at hc
    exact not_isMargin_of_isDigit (isDigit_of_mem_toDigits hc)

theorem text_eq_toString (n : Int) : text n = toString n := by
  cases n with
  | ofNat n => rfl
  | negSucc n =>
    rw [text, if_pos (Int.negSucc_lt_zero n), Int.natAbs_negSucc]
    exact String.ofList_cons

theorem tooLarge_eq : tooLarge = 10 ^ maxDigits := by
  rw [show maxDigits = 100 * 43 from rfl, Nat.pow_mul]
  rfl

theorem isWritable_iff (n : Int) : isWritable n ↔ n.natAbs < 10 ^ maxDigits := by
  rw [isWritable, decide_eq_true_iff, tooLarge_eq]

/-- The numeral of an integer is read back as that integer. -/
theorem parse?_text {n : Int} (writable : isWritable n) : parse? (text n) = some n := by
  obtain ⟨ds, read, length, value⟩ := digits?_toDigits n.natAbs
  have short : ¬maxDigits < ds.length := by
    rw [length, Nat.not_lt, Nat.length_toDigits_le_iff (by decide) (by decide)]
    exact (isWritable_iff n).1 writable
  have signed : splitSign (text n).toList = (decide (n < 0), Nat.toDigits 10 n.natAbs) := by
    unfold text
    by_cases negative : n < 0
    · rw [if_pos negative, String.toList_ofList, decide_eq_true negative]
      rfl
    · rw [if_neg negative, String.toList_ofList, decide_eq_false negative]
      exact splitSign_toDigits _
  rw [parse?, trim_eq_self fun _ hc => not_isMargin_of_mem_text hc, signed]
  dsimp only
  rw [read]
  dsimp only
  rw [if_neg short, value]
  by_cases negative : n < 0
  · rw [decide_eq_true negative, if_pos rfl]
    exact congrArg some (by omega)
  · rw [decide_eq_false negative, if_neg Bool.false_ne_true]
    exact congrArg some (by omega)

/-! ### Which integers have numerals -/

/-- What is read from a numeral has no more digits than a numeral may have. -/
theorem isWritable_of_parse? {t : String} {n : Int} (read : parse? t = some n) : isWritable n := by
  unfold parse? at read
  cases digits : digits? (splitSign (dropEndWhile isMargin (t.toList.dropWhile isMargin))).2 with
  | none => simp [digits] at read
  | some ds =>
    simp only [digits] at read
    split at read
    · cases read
    · rename_i short
      have value : n.natAbs = ofDigits ds := by
        rw [← Option.some.inj read]
        split
        · exact Int.natAbs_neg _
        · rfl
      have few : ofDigits ds < 10 ^ maxDigits :=
        (ofDigits_lt (lt_ten_of_mem_digits? digits)).trans_le
          (Nat.pow_le_pow_right (by decide) (Nat.not_lt.1 short))
      exact (isWritable_iff n).2 (value ▸ few)

theorem isWritable_of_between {low high n : Int} (one : isWritable low) (other : isWritable high)
    (above : low ≤ n) (below : n ≤ high) : isWritable n := by
  rw [isWritable_iff] at *
  generalize 10 ^ maxDigits = bound at *
  omega

end Integer

/-! ### Texts that name integers -/

theorem Fault.isWritable_iff (f : Fault) :
    f.isWritable ↔ ∀ n ∈ f.numbers, n.natAbs < 10 ^ Integer.maxDigits := by
  simp only [isWritable, List.all_eq_true, Integer.isWritable_iff]

theorem written_eq_ok_iff {numbers : List Int} {text written' : String} :
    written numbers text = .ok written' ↔ (∀ n ∈ numbers, Integer.isWritable n) ∧ written' = text := by
  unfold written
  rw [← List.all_eq_true]
  by_cases short : numbers.all Integer.isWritable
  · simp [short, eq_comm]
  · simp [short]

theorem written_of_short {numbers : List Int} (short : ∀ n ∈ numbers, Integer.isWritable n)
    (text : String) : written numbers text = .ok text :=
  written_eq_ok_iff.2 ⟨short, rfl⟩

theorem written_of_long {numbers : List Int} (long : ∃ n ∈ numbers, ¬Integer.isWritable n)
    (text : String) : written numbers text = .error .numeralTooLong := by
  refine if_neg fun short => ?_
  obtain ⟨n, hn, long⟩ := long
  exact long (List.all_eq_true.1 short n hn)

end RoundRobin
