import RoundRobin.Number.Fixed

/-!
# The shortest decimal that reads back

A number is written with the fewest digits whose nearest number is that number again. For each
count of digits the two decimals around the value are tried; of two that read back the nearer one
is taken, and at a tie the one with the even last digit. Values from `10 ^ (-4)` up to `10 ^ 16` are
written out in full, with at least one place after the point, all others with an exponent of at least
two digits.
-/

namespace RoundRobin.Binary64

/-- The `p` with `10 ^ (p - 1) ≤ num / den < 10 ^ p`, for a positive quotient. -/
def decimalPoint (num den : Nat) : Int :=
  if den ≤ num then (Nat.toDigits 10 (num / den)).length
  else 1 - ((Nat.toDigits 10 (den / num)).length : Int)

/-- The decimal with `count` digits that reads back as the positive number `num / den`, if one of
the two decimals around it does: its digits as a natural number. -/
def tryDigits (num den : Nat) (point : Int) (count : Nat) : Option Nat :=
  let unit := point - count
  let n := if 0 ≤ unit then num else num * Nat.pow 10 (-unit).toNat
  let d := if 0 ≤ unit then den * Nat.pow 10 unit.toNat else den
  let below := n / d
  let target := ofRatio false num den
  let lower := ofDecimal false below unit == target
  let upper := ofDecimal false (below + 1) unit == target
  if lower && (!upper || roundDiv n d = below) then some below
  else if upper then some (below + 1)
  else none

/-- The digits of the shortest decimal that reads back, and how many of them stand before the
point. Seventeen digits always suffice. -/
def shortestDigits (num den : Nat) : Nat × Int :=
  let point := decimalPoint num den
  match (List.range' 1 17).findSome? fun count =>
      (tryDigits num den point count).map fun ds => (ds, point - count) with
  | some (ds, unit) => (ds, ((Nat.toDigits 10 ds).length : Int) + unit)
  | none => (0, 0)

/-- A row of digits with the point after the first `point` of them. -/
def placePoint (ds : List Char) (point : Int) : List Char :=
  if -4 < point ∧ point ≤ 16 then
    if point ≤ 0 then '0' :: '.' :: (List.replicate (-point).toNat '0' ++ ds)
    else
      let whole := ds.take point.toNat ++ List.replicate (point.toNat - ds.length) '0'
      let places := ds.drop point.toNat
      whole ++ '.' :: (if places.isEmpty then ['0'] else places)
  else
    let exponent := point - 1
    let mantissa := ds.take 1 ++ (if ds.length ≤ 1 then [] else '.' :: ds.drop 1)
    mantissa ++ 'e' :: (if exponent < 0 then '-' else '+') :: padDigits 2 exponent.natAbs

/-- The digits of a number without the zeros at their end. -/
def significantDigits (n : Nat) : List Char :=
  ((Nat.toDigits 10 n).reverse.dropWhile (· == '0')).reverse

/-- The shortest text that reads back as the number. -/
def shortest : Binary64 → String
  | finite negative m e =>
    let text :=
      if m = 0 then "0.0"
      else
        let (num, den) := scale m 1 (-e)
        let (ds, point) := shortestDigits num den
        String.ofList (placePoint (significantDigits ds) point)
    if negative then "-" ++ text else text
  | infinite negative => if negative then "-inf" else "inf"
  | nan => "nan"

end RoundRobin.Binary64
