import RoundRobin.Text.Blank
import RoundRobin.Text.Digit

/-!
# Integer numerals

What counts as the numeral of an integer, and the numeral that is written for one. Reading is
liberal: digits of any script, single underscores between digits, a sign and margins are accepted.
Writing is plain: a minus sign for a negative number, then decimal digits without leading zeros.
-/

namespace RoundRobin.Integer

open RoundRobin.Text

/-- The characters that may stand around a numeral: the blanks, except the four control characters
that separate units of information. -/
def isMargin (c : Char) : Bool := isBlank c && !(28 ≤ c.val && c.val ≤ 31)

/-- A numeral may have this many digits, its leading zeros among them. -/
def maxDigits : Nat := 4300

/-- The values of the digits of an unsigned numeral: at least one digit, with at most one
underscore between two digits and none elsewhere. -/
def digits? : List Char → Option (List Nat)
  | [] => none
  | c :: r =>
    match digitValue? c with
    | none => none
    | some d =>
      match r with
      | [] => some [d]
      | u :: r' =>
        if u = '_' then (digits? r').map (d :: ·) else (digits? (u :: r')).map (d :: ·)

/-- The number that a row of decimal digits stands for. -/
def ofDigits (ds : List Nat) : Nat := ds.foldl (fun n d => 10 * n + d) 0

/-- The sign in front of a numeral, `true` for minus, and the rest; a plus sign counts for
nothing. -/
def splitSign : List Char → Bool × List Char
  | [] => (false, [])
  | c :: r => if c = '-' then (true, r) else if c = '+' then (false, r) else (false, c :: r)

/-- The integer that a text is a numeral of. -/
def parse? (text : String) : Option Int :=
  let (negative, rest) := splitSign (dropEndWhile isMargin (text.toList.dropWhile isMargin))
  match digits? rest with
  | none => none
  | some ds =>
    if maxDigits < ds.length then none
    else some (if negative then -(ofDigits ds : Int) else ofDigits ds)

/-- The least number with too many digits, put together from powers that are small enough to be
evaluated (`tooLarge_eq`). -/
def tooLarge : Nat := Nat.pow (Nat.pow 10 100) 43

/-- Whether an integer has no more digits than a numeral may have. -/
def isWritable (n : Int) : Bool := n.natAbs < tooLarge

/-- What is said about an integer with too many digits. -/
def tooLongMessage : String :=
  "Exceeds the limit (4300 digits) for integer string conversion; "
    ++ "use sys.set_int_max_str_digits() to increase the limit"

/-- The plain numeral of an integer. -/
def text (n : Int) : String :=
  if n < 0 then String.ofList ('-' :: Nat.toDigits 10 n.natAbs)
  else String.ofList (Nat.toDigits 10 n.natAbs)

/-! ### What the readers accept -/

theorem lt_ten_of_mem_digits? {cs : List Char} {ds : List Nat} (h : digits? cs = some ds) :
    ∀ d ∈ ds, d < 10 := by
  fun_induction digits? cs generalizing ds with
  | case1 => simp at h
  | case2 => simp at h
  | case3 c d hd =>
    cases h
    simpa using digitValue?_lt hd
  | case4 c d hd r ih =>
    obtain ⟨ds', h', rfl⟩ := Option.map_eq_some_iff.1 h
    simpa using ⟨digitValue?_lt hd, ih h'⟩
  | case5 c d hd u r hu ih =>
    obtain ⟨ds', h', rfl⟩ := Option.map_eq_some_iff.1 h
    simpa using ⟨digitValue?_lt hd, ih h'⟩

theorem ne_nil_of_digits? {cs : List Char} {ds : List Nat} (h : digits? cs = some ds) :
    ds ≠ [] := by
  fun_induction digits? cs generalizing ds with
  | case1 => simp at h
  | case2 => simp at h
  | case3 => cases h; simp
  | case4 =>
    obtain ⟨_, -, rfl⟩ := Option.map_eq_some_iff.1 h
    simp
  | case5 =>
    obtain ⟨_, -, rfl⟩ := Option.map_eq_some_iff.1 h
    simp

end RoundRobin.Integer
