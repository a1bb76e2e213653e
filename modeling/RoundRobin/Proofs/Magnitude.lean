import Mathlib.Tactic.Common
import RoundRobin.Number.Binary64

/-!
# Numbers that are too large

How large an integer or a quotient may be for a binary64 number. All that are nearer to zero than
`Binary64.limit` are rounded to a number of the format (`Binary64.isFinite_quotient`), and no other
integers are (`Binary64.isFinite_ofInt_iff`). The limit lies below the next power of two, by half the
distance between the greatest numbers of the format.
-/

namespace RoundRobin

/-- A quotient that is nearer to the numbers below a bound than to the bound is rounded to one of
them. -/
theorem roundDiv_lt {num den bound : Nat} (positive : 0 < den)
    (small : 2 * num < (2 * bound - 1) * den) : roundDiv num den < bound := by
  have below := (roundDiv_spec num positive).2.1
  have some_bound : 1 ≤ 2 * bound := by
    by_contra nothing
    rw [Nat.sub_eq_zero_of_le (by omega), Nat.zero_mul] at small
    omega
  have twice : (2 * bound - 1) * den + den = 2 * den * bound := by
    rw [← Nat.succ_mul, Nat.succ_eq_add_one, Nat.sub_add_cancel some_bound, Nat.mul_right_comm]
  by_contra reached
  have above := Nat.mul_le_mul_left (2 * den) (Nat.not_lt.1 reached)
  omega

/-- A quotient that is at least as near to an even bound as to the number below it is not rounded to
a number below the bound. -/
theorem le_roundDiv {num den bound : Nat} (positive : 0 < den) (even : bound % 2 = 0)
    (large : (2 * bound - 1) * den ≤ 2 * num) : bound ≤ roundDiv num den := by
  obtain ⟨above, -, tie⟩ := roundDiv_spec num positive
  by_contra short
  have gap : (2 * roundDiv num den + 1) * den ≤ (2 * bound - 1) * den :=
    Nat.mul_le_mul_right den (by omega)
  have sum : (2 * roundDiv num den + 1) * den = 2 * den * roundDiv num den + den := by
    rw [Nat.add_mul, Nat.one_mul, Nat.mul_right_comm]
  -- the quotient lies halfway between what it is rounded to and the bound, which is even
  have halfway : 2 * num = 2 * den * roundDiv num den + den := by omega
  have next : (2 * roundDiv num den + 1) * den = (2 * bound - 1) * den := by omega
  have neighbour := Nat.eq_of_mul_eq_mul_right positive next
  have even' := tie (.inl halfway)
  omega

namespace Binary64

/-- What a significand counts at an exponent that is not negative. -/
def unit (e : Nat) : Nat := Nat.pow 2 e

theorem unit_pos (e : Nat) : 0 < unit e := Nat.two_pow_pos e

theorem scale_of_nonneg (num den e : Nat) : scale num den e = (num, den * unit e) :=
  if_pos (Int.natCast_nonneg e)

/-- The integers below this one are nearer to the greatest number of the format than to the next
power of two. -/
def limit : Nat := Nat.pow 2 1024 - Nat.pow 2 970

theorem limit_lt : limit < unit 1024 := by decide +kernel

theorem limit_lt_mul : limit < Nat.pow 2 52 * unit 972 := by decide +kernel

theorem two_mul_limit : 2 * limit = (2 * Nat.pow 2 53 - 1) * unit 971 := by decide +kernel

section

variable {num den bound most e : Nat}

theorem log2_lt_of_lt (some_part : num ≠ 0) (small : num < bound * den) (fits : bound < unit e) :
    num.log2 < e + 1 + den.log2 := by
  apply (Nat.log2_lt some_part).2
  calc num < bound * den := small
    _ ≤ 2 ^ e * 2 ^ (den.log2 + 1) :=
      Nat.mul_le_mul (Nat.le_of_lt fits) (Nat.le_of_lt Nat.lt_log2_self)
    _ = 2 ^ (e + 1 + den.log2) := by rw [← Nat.pow_add]; congr 1; omega

theorem div_lt_of_lt (positive : 0 < den) (small : num < bound * den) (fits : bound < most * unit e) :
    num / (den * unit e) < most := by
  apply (Nat.div_lt_iff_lt_mul (Nat.mul_pos positive (unit_pos e))).2
  calc num < bound * den := small
    _ ≤ most * unit e * den := Nat.mul_le_mul_right den (Nat.le_of_lt fits)
    _ = most * (den * unit e) := by rw [Nat.mul_assoc, Nat.mul_comm den]

theorem roundDiv_lt_of_lt (positive : 0 < den) (small : num < bound * den)
    (fits : 2 * bound = (2 * most - 1) * unit e) : roundDiv num (den * unit e) < most := by
  apply roundDiv_lt (Nat.mul_pos positive (unit_pos e))
  calc 2 * num < 2 * (bound * den) := Nat.mul_lt_mul_of_pos_left small Nat.two_pos
    _ = (2 * most - 1) * unit e * den := by rw [← Nat.mul_assoc, fits]
    _ = (2 * most - 1) * (den * unit e) := by rw [Nat.mul_assoc, Nat.mul_comm den]

end

variable {num den : Nat}

/-- A quotient below the limit has at most the greatest exponent. -/
theorem exponentOf_le (some_part : num ≠ 0) (positive : 0 < den) (small : num < limit * den) :
    exponentOf num den ≤ maxExponent := by
  have length := log2_lt_of_lt some_part small limit_lt
  have few := div_lt_of_lt positive small limit_lt_mul
  have greatest : maxExponent = 971 := rfl
  have least : minExponent = -1074 := rfl
  unfold exponentOf
  dsimp only
  by_cases top : (num.log2 : Int) - (den.log2 : Int) - 52 = (972 : Nat)
  · rw [top, scale_of_nonneg]
    dsimp only
    rw [if_pos few]
    omega
  · split <;> omega

/-- A quotient below the limit is rounded to a number of the format. -/
theorem isFinite_ofRatio (negative : Bool) (positive : 0 < den) (small : num < limit * den) :
    (ofRatio negative num den).isFinite := by
  unfold ofRatio
  by_cases nothing : num = 0
  · rw [if_pos nothing]
    rfl
  · have exponent := exponentOf_le nothing positive small
    have greatest : maxExponent = (971 : Nat) := rfl
    rw [if_neg nothing]
    dsimp only
    by_cases top : exponentOf num den = (971 : Nat)
    · -- at the greatest exponent the significand is not rounded up to the next power of two
      have short := roundDiv_lt_of_lt positive small two_mul_limit
      rw [top, scale_of_nonneg]
      dsimp only
      rw [if_neg (Nat.ne_of_lt short)]
      dsimp only
      rw [if_neg (by omega)]
      rfl
    · split
      · rw [if_neg (by dsimp only; omega)]
        rfl
      · rw [if_neg (by dsimp only; omega)]
        rfl

theorem isFinite_quotient {n : Int} (positive : 0 < den) (small : n.natAbs < limit * den) :
    (quotient n den).isFinite :=
  isFinite_ofRatio _ positive small

theorem isFinite_ofInt {n : Int} (small : n.natAbs < limit) : (ofInt n).isFinite :=
  isFinite_ofRatio _ Nat.one_pos (by rwa [Nat.mul_one])

theorem le_log2_of_unit_le {e : Nat} (some_part : num ≠ 0) (large : unit e ≤ num) : e ≤ num.log2 :=
  (Nat.le_log2 some_part).2 large

/-- From `2 ^ 1024` on, an integer has a greater exponent than the numbers of the format. -/
theorem maxExponent_lt_exponentOf (large : unit 1024 ≤ num) : maxExponent < exponentOf num 1 := by
  have some_part : num ≠ 0 := Nat.ne_of_gt (Nat.lt_of_lt_of_le (unit_pos 1024) large)
  obtain ⟨e, long⟩ := Nat.exists_eq_add_of_le (le_log2_of_unit_le some_part large)
  have guess : (num.log2 : Int) - (Nat.log2 1 : Nat) - 52 = (972 + e : Nat) := by
    have one : Nat.log2 1 = 0 := by decide
    omega
  have full : Nat.pow 2 52 ≤ num / (1 * unit (972 + e)) := by
    apply (Nat.le_div_iff_mul_le (Nat.mul_pos Nat.one_pos (unit_pos _))).2
    calc 2 ^ 52 * (1 * 2 ^ (972 + e)) = 2 ^ num.log2 := by
          rw [Nat.one_mul, ← Nat.pow_add, long]; congr 1; omega
      _ ≤ num := Nat.log2_self_le some_part
  have greatest : maxExponent = 971 := rfl
  unfold exponentOf
  dsimp only
  rw [guess, scale_of_nonneg]
  dsimp only
  rw [if_neg (Nat.not_lt.2 full)]
  omega

theorem log2_lt_of_lt_unit {e : Nat} (some_part : num ≠ 0) (few : num < unit e) : num.log2 < e :=
  (Nat.log2_lt some_part).2 few

/-- From the limit up to `2 ^ 1024`, an integer has the greatest exponent of the format. -/
theorem exponentOf_of_limit_le (large : limit ≤ num) (few : num < unit 1024) :
    exponentOf num 1 = (971 : Nat) := by
  have some_part : num ≠ 0 := Nat.ne_of_gt (Nat.lt_of_lt_of_le (by decide +kernel) large)
  have log : num.log2 = 1023 := by
    apply Nat.le_antisymm
    · exact Nat.le_of_lt_succ (log2_lt_of_lt_unit some_part few)
    · exact le_log2_of_unit_le some_part (Nat.le_trans (by decide +kernel) large)
  have guess : (num.log2 : Int) - (Nat.log2 1 : Nat) - 52 = (971 : Nat) := by
    rw [log]
    decide
  have full : Nat.pow 2 52 ≤ num / (1 * unit 971) := by
    apply (Nat.le_div_iff_mul_le (Nat.mul_pos Nat.one_pos (unit_pos _))).2
    calc Nat.pow 2 52 * (1 * unit 971) ≤ limit := by decide +kernel
      _ ≤ num := large
  unfold exponentOf
  dsimp only
  rw [guess, scale_of_nonneg]
  dsimp only
  rw [if_neg (Nat.not_lt.2 full)]
  rfl

/-- At that exponent its significand is rounded up to the next power of two. -/
theorem roundDiv_of_limit_le (large : limit ≤ num) (few : num < unit 1024) :
    roundDiv num (1 * unit 971) = Nat.pow 2 53 := by
  have positive : 0 < 1 * unit 971 := Nat.mul_pos Nat.one_pos (unit_pos 971)
  apply Nat.le_antisymm
  · apply Nat.le_of_lt_succ
    apply roundDiv_lt positive
    calc 2 * num < 2 * unit 1024 := Nat.mul_lt_mul_of_pos_left few Nat.two_pos
      _ ≤ (2 * Nat.succ (Nat.pow 2 53) - 1) * (1 * unit 971) := by decide +kernel
  · apply le_roundDiv positive (by decide)
    rw [Nat.one_mul, ← two_mul_limit]
    exact Nat.mul_le_mul_left 2 large

theorem not_isFinite_ofInt {n : Int} (large : limit ≤ n.natAbs) : ¬(ofInt n).isFinite := by
  have some_part : n.natAbs ≠ 0 := Nat.ne_of_gt (Nat.lt_of_lt_of_le (by decide +kernel) large)
  unfold ofInt ofRatio
  rw [if_neg some_part]
  dsimp only
  by_cases few : n.natAbs < unit 1024
  · rw [exponentOf_of_limit_le large few, scale_of_nonneg]
    dsimp only
    rw [if_pos (roundDiv_of_limit_le large few)]
    nofun
  · have exponent := maxExponent_lt_exponentOf (Nat.not_lt.1 few)
    split
    · rw [if_pos (by dsimp only; omega)]
      nofun
    · nofun

/-- The integers below the limit, and no others, are in the range of the format. -/
theorem isFinite_ofInt_iff {n : Int} : (ofInt n).isFinite ↔ n.natAbs < limit := by
  refine ⟨fun finite => ?_, isFinite_ofInt⟩
  by_contra large
  exact not_isFinite_ofInt (Nat.not_lt.1 large) finite

end Binary64

end RoundRobin
