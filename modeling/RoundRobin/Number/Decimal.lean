import RoundRobin.Number.Integer
import RoundRobin.Number.Binary64

/-!
# Real numerals

What counts as the numeral of a real number, and the binary64 number nearest to it. The grammar
is that of decimal fractions with an optional exponent, with digits of any script, single
underscores between digits and margins as in integer numerals; infinity and not-a-number have
names, in letters of either case.
-/

namespace RoundRobin.Decimal

open RoundRobin.Text RoundRobin.Integer

/-- A numeral with its digits turned into the ten basic ones. -/
def basicDigits (cs : List Char) : List Char :=
  cs.map fun c =>
    match digitValue? c with
    | some d => Nat.digitChar d
    | none => c

/-- The text without its underscores, if each of them stands between two digits; `afterDigit`
tells whether the character before the text is a digit. -/
def dropUnderscores : Bool → List Char → Option (List Char)
  | _, [] => some []
  | afterDigit, c :: r =>
    if c = '_' then
      if afterDigit && (r.head?.elim false Char.isDigit) then dropUnderscores false r else none
    else (dropUnderscores c.isDigit r).map (c :: ·)

/-- The value of a row of basic digits. -/
def digitsValue (ds : List Char) : Nat := ofDigits (ds.map fun c => c.toNat - 48)

/-- The exponent that a text writes: nothing, or the letter with an optionally signed row of
digits. -/
def exponent? : List Char → Option Int
  | [] => some 0
  | c :: r =>
    if c = 'e' ∨ c = 'E' then
      let (negative, ds) := splitSign r
      if ds.isEmpty || !ds.all Char.isDigit then none
      else some (if negative then -(digitsValue ds : Int) else digitsValue ds)
    else none

/-- The number nearest to `digits * 10 ^ exponent`, where `count` digits were written. Exponents
far outside the range of the format are settled without computing the power. -/
def nearest (negative : Bool) (count digits : Nat) (exponent : Int) : Binary64 :=
  if digits = 0 then .finite negative 0 Binary64.minExponent
  else if 400 < exponent then .infinite negative
  else if exponent + count < -400 then .finite negative 0 Binary64.minExponent
  else .ofDecimal negative digits exponent

/-- The number of an unsigned decimal fraction with optional exponent. -/
def fraction? (negative : Bool) (cs : List Char) : Option Binary64 :=
  let whole := cs.takeWhile Char.isDigit
  let rest := cs.dropWhile Char.isDigit
  let afterPoint := if rest.head? = some '.' then rest.drop 1 else []
  let places := afterPoint.takeWhile Char.isDigit
  let tail := if rest.head? = some '.' then afterPoint.dropWhile Char.isDigit else rest
  let ds := whole ++ places
  if ds.isEmpty then none
  else (exponent? tail).map fun e =>
    nearest negative ds.length (digitsValue ds) (e - (places.length : Int))

/-- The named numbers. -/
def named? (negative : Bool) (cs : List Char) : Option Binary64 :=
  match String.ofList (cs.map Char.toLower) with
  | "inf" | "infinity" => some (.infinite negative)
  | "nan" => some .nan
  | _ => none

/-- The number that a text is a numeral of. -/
def parse? (text : String) : Option Binary64 := do
  let cs := basicDigits (dropEndWhile isMargin (text.toList.dropWhile isMargin))
  let cs ← dropUnderscores false cs
  let (negative, body) := splitSign cs
  (named? negative body).or (fraction? negative body)

end RoundRobin.Decimal
