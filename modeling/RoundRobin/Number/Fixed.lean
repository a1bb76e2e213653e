import RoundRobin.Number.Binary64

/-!
# Fixed decimal places

A number written with a given count of decimal places: the exact value is rounded once, a half
goes to the even last digit, and the sign is written even where only zeros remain.
-/

namespace RoundRobin.Binary64

/-- A row of digits with leading zeros up to the given width. -/
def padDigits (width n : Nat) : List Char :=
  let ds := Nat.toDigits 10 n
  List.replicate (width - ds.length) '0' ++ ds

/-- The number of units of the last place that is nearest to the magnitude `m * 2 ^ e`. -/
def placeCount (places m : Nat) (e : Int) : Nat :=
  let (n, d) := scale (m * Nat.pow 10 places) 1 (-e)
  roundDiv n d

/-- The text of a number with the given count of decimal places, at least one. -/
def fixed (places : Nat) : Binary64 → String
  | finite negative m e =>
    let ds := padDigits (places + 1) (placeCount places m e)
    let whole := ds.length - places
    let text := String.ofList (ds.take whole ++ '.' :: ds.drop whole)
    if negative then "-" ++ text else text
  | infinite negative => if negative then "-inf" else "inf"
  | nan => "nan"

theorem length_padDigits (width n : Nat) : width ≤ (padDigits width n).length := by
  simp only [padDigits, List.length_append, List.length_replicate]
  omega

end RoundRobin.Binary64
