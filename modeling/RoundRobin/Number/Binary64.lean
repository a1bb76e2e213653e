/-!
# Binary64 numbers

The numbers of the 64-bit binary format as exact values: a sign, a significand and a power of two.
Every operation computes its exact rational result and rounds it once, to the nearest number of
the format and at a tie to the one with the even significand. `roundDiv_spec` states the rule for
quotients of naturals, on which all rounding here rests.
-/

namespace RoundRobin

/-- A number of the format. `finite s m e` stands for `m * 2 ^ e`, negated if `s` holds. -/
inductive Binary64 where
  | finite (negative : Bool) (significand : Nat) (exponent : Int)
  | infinite (negative : Bool)
  | nan
  deriving DecidableEq, Repr, Inhabited

/-- The natural number nearest to a quotient; of two equally near ones the even one. -/
def roundDiv (num den : Nat) : Nat :=
  let below := num / den
  let twice := 2 * (num % den)
  if twice < den ∨ (twice = den ∧ below % 2 = 0) then below else below + 1

/-- The result lies within half a unit of the quotient, and at a tie it is even. -/
theorem roundDiv_spec (num : Nat) {den : Nat} (positive : 0 < den) :
    2 * num ≤ 2 * den * roundDiv num den + den ∧ 2 * den * roundDiv num den ≤ 2 * num + den ∧
      (2 * num = 2 * den * roundDiv num den + den ∨ 2 * den * roundDiv num den = 2 * num + den →
        roundDiv num den % 2 = 0) := by
  have split := Nat.div_add_mod num den
  have small := Nat.mod_lt num positive
  have below : 2 * den * (num / den) = 2 * (den * (num / den)) := by rw [Nat.mul_assoc]
  have above : 2 * den * (num / den + 1) = 2 * (den * (num / den)) + 2 * den := by
    rw [Nat.mul_add, below, Nat.mul_one]
  unfold roundDiv
  dsimp only
  by_cases h : 2 * (num % den) < den ∨ (2 * (num % den) = den ∧ num / den % 2 = 0)
  · rw [if_pos h, below]
    omega
  · rw [if_neg h, above]
    omega

namespace Binary64

/-- The least exponent of the format. -/
def minExponent : Int := -1074

/-- The greatest exponent of the format. -/
def maxExponent : Int := 971

/-- The quotient `num / den` divided by `2 ^ e`, as a quotient. -/
def scale (num den : Nat) (e : Int) : Nat × Nat :=
  if 0 ≤ e then (num, den * Nat.pow 2 e.toNat) else (num * Nat.pow 2 (-e).toNat, den)

/-- The exponent at which the quotient of two positive numbers has a significand of 53 bits, or
the least exponent of the format if that is greater. -/
def exponentOf (num den : Nat) : Int :=
  let guess := (num.log2 : Int) - (den.log2 : Int) - 52
  let (n, d) := scale num den guess
  max minExponent (if n / d < Nat.pow 2 52 then guess - 1 else guess)

/-- The number nearest to a quotient of naturals, with the given sign. -/
def ofRatio (negative : Bool) (num den : Nat) : Binary64 :=
  if num = 0 then finite negative 0 minExponent
  else
    let e := exponentOf num den
    let (n, d) := scale num den e
    let m := roundDiv n d
    let (m, e) := if m = Nat.pow 2 53 then (Nat.pow 2 52, e + 1) else (m, e)
    if maxExponent < e then infinite negative else finite negative m e

/-- The number nearest to an integer. -/
def ofInt (n : Int) : Binary64 := ofRatio (n < 0) n.natAbs 1

/-- The number nearest to the quotient of an integer by a positive number. -/
def quotient (n : Int) (den : Nat) : Binary64 := ofRatio (n < 0) n.natAbs den

/-- The number nearest to an integer times a power of ten. -/
def ofDecimal (negative : Bool) (digits : Nat) (exponent : Int) : Binary64 :=
  if 0 ≤ exponent then ofRatio negative (digits * Nat.pow 10 exponent.toNat) 1
  else ofRatio negative digits (Nat.pow 10 (-exponent).toNat)

def zero : Binary64 := finite false 0 minExponent

def isFinite : Binary64 → Bool
  | finite .. => true
  | _ => false

/-- Both zeros count as zero. -/
def isZero : Binary64 → Bool
  | finite _ m _ => m == 0
  | _ => false

/-- The product by a natural number. -/
def scaleBy (k : Nat) : Binary64 → Binary64
  | finite s m e =>
    let (n, d) := scale (m * k) 1 (-e)
    ofRatio s n d
  | infinite s => if k = 0 then nan else infinite s
  | nan => nan

/-- The half of a number. -/
def half : Binary64 → Binary64
  | finite s m e =>
    let (n, d) := scale m 2 (-e)
    ofRatio s n d
  | x => x

/-- The integer by which a number counts units of `2 ^ unit`, for a `unit` not above its
exponent. -/
def countOf (negative : Bool) (significand : Nat) (exponent unit : Int) : Int :=
  let count : Int := significand * Nat.pow 2 (exponent - unit).toNat
  if negative then -count else count

/-- The sum of two numbers. A sum of zero is negative only if both terms are. -/
def add : Binary64 → Binary64 → Binary64
  | finite s m e, finite s' m' e' =>
    let unit := min e e'
    let total := countOf s m e unit + countOf s' m' e' unit
    let (n, d) := scale total.natAbs 1 (-unit)
    ofRatio (total < 0 || (total == 0 && s && s')) n d
  | infinite s, infinite s' => if s = s' then infinite s else nan
  | nan, _ | _, nan => nan
  | infinite s, _ | _, infinite s => infinite s

end Binary64

end RoundRobin
