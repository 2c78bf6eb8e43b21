import Mathlib.Algebra.Order.Field.Power
import Mathlib.Algebra.Order.Field.Rat
import Mathlib.Data.Nat.Cast.Field
import Mathlib.Tactic.Linarith
import Mathlib.Tactic.NormNum.Pow
import Mathlib.Tactic.Ring
import Stencil.Number.Basic

/-!
# Exact values

The value of a binary floating-point number is an exact fraction, and numbers are compared by it. An
integer is converted to a number that is off by a small part of the integer at most, so that no integer
but zero becomes zero.
-/

namespace Stencil

namespace Binary64

/-- The exact value. -/
def value (x : Binary64) : ℚ :=
  (if x.negative then -1 else 1) * (x.mantissa * 2 ^ x.exponent)

theorem two_zpow_sub (a b : ℕ) : (2 : ℚ) ^ (a - b : ℤ) = 2 ^ a / 2 ^ b := by
  rw [zpow_sub₀ two_ne_zero, zpow_natCast, zpow_natCast]

theorem numerator_div_denominator (x : Binary64) :
    (x.numerator / x.denominator : ℚ) = x.mantissa * 2 ^ x.exponent := by
  have hsplit : x.exponent = x.exponent.toNat - (-x.exponent).toNat := by omega
  have hpow : (2 : ℚ) ^ x.exponent = 2 ^ x.exponent.toNat / 2 ^ (-x.exponent).toNat := by
    conv_lhs => rw [hsplit, two_zpow_sub]
  simp [numerator, denominator, hpow, mul_div_assoc]

theorem cast_denominator_pos (x : Binary64) : (0 : ℚ) < x.denominator := by
  exact_mod_cast x.denominator_pos

theorem abs_value (x : Binary64) : |x.value| = x.numerator / x.denominator := by
  have hnonneg : (0 : ℚ) ≤ x.mantissa * 2 ^ x.exponent := by positivity
  rw [numerator_div_denominator, value]
  split
  · rw [neg_one_mul, abs_neg, abs_of_nonneg hnonneg]
  · rw [one_mul, abs_of_nonneg hnonneg]

/-- Magnitudes are compared exactly. -/
theorem isBelow_iff {x y : Binary64} : x.isBelow y = true ↔ |x.value| < |y.value| := by
  rw [abs_value, abs_value, div_lt_div_iff₀ x.cast_denominator_pos y.cast_denominator_pos, isBelow,
    decide_eq_true_iff]
  norm_cast

theorem isZero_iff {x : Binary64} : x.isZero = true ↔ x.value = 0 := by
  have hpow : (2 : ℚ) ^ x.exponent ≠ 0 := zpow_ne_zero _ two_ne_zero
  cases hsign : x.negative <;> simp [isZero, value, hsign, hpow]

theorem cast_leastNormal : (leastNormal : ℚ) = 2 ^ 52 := by
  norm_num [leastNormal]

/-- A quotient rounded to a whole number is off by half a unit at most. -/
theorem divToEven_near (n : Nat) {d : Nat} (h : 0 < d) :
    2 * (divToEven n d * d) ≤ 2 * n + d ∧ 2 * n ≤ 2 * (divToEven n d * d) + d := by
  have hsplit := Nat.div_add_mod' n d
  have hrest := Nat.mod_lt n h
  simp only [divToEven, Bool.or_eq_true, Bool.and_eq_true, decide_eq_true_eq]
  split
  case isTrue hnear => omega
  case isFalse hfar =>
    rw [Nat.add_mul]
    omega

theorem divToEven_le {n d k : Nat} (h : n / d < k) : divToEven n d ≤ k := by
  simp only [divToEven]
  split <;> omega

theorem leadingDigits_le (n : Nat) : leadingDigits n ≤ 2 * leastNormal := by
  apply divToEven_le
  apply (Nat.div_lt_iff_lt_mul (Nat.two_pow_pos _)).2
  have hlog : n < 2 * Nat.pow 2 n.log2 := by
    rw [Nat.mul_comm]
    exact Nat.lt_log2_self
  calc n * leastNormal < 2 * Nat.pow 2 n.log2 * leastNormal :=
        Nat.mul_lt_mul_of_pos_right hlog (Nat.two_pow_pos 52)
    _ = 2 * leastNormal * Nat.pow 2 n.log2 := Nat.mul_right_comm ..

/-- The leading digits with their place are off by half a unit of the last one at most. -/
theorem abs_leadingDigits_sub_le {n : Nat} (h : n ≠ 0) :
    |(leadingDigits n * 2 ^ n.log2 / 2 ^ 52 - n : ℚ)| ≤ n / 2 ^ 53 := by
  obtain ⟨upper, lower⟩ := divToEven_near (n * leastNormal) (Nat.two_pow_pos n.log2)
  have hlog : (2 ^ n.log2 : ℚ) ≤ n := by exact_mod_cast Nat.log2_self_le h
  have hdigits : leadingDigits n = divToEven (n * leastNormal) (2 ^ n.log2) := rfl
  have hupper : 2 * ((leadingDigits n : ℚ) * 2 ^ n.log2) ≤ 2 * (n * 2 ^ 52) + 2 ^ n.log2 := by
    rw [hdigits, ← cast_leastNormal]
    exact_mod_cast upper
  have hlower : 2 * (n * 2 ^ 52) ≤ 2 * ((leadingDigits n : ℚ) * 2 ^ n.log2) + 2 ^ n.log2 := by
    rw [hdigits, ← cast_leastNormal]
    exact_mod_cast lower
  rw [abs_le]
  constructor <;> linarith

/-- Rounded up to the next power of two or not, the digits of an integer have their place. -/
theorem value_ofInt {n : Int} (h : n ≠ 0) :
    (ofInt n).value = n.sign * (leadingDigits n.natAbs * 2 ^ n.natAbs.log2 / 2 ^ 52) := by
  have hsign : (if n < 0 then -1 else 1 : ℚ) = n.sign := by
    rcases lt_or_gt_of_ne h with hneg | hpos
    · rw [if_pos hneg, Int.sign_eq_neg_one_of_neg hneg, Int.cast_neg, Int.cast_one]
    · rw [if_neg hpos.not_gt, Int.sign_eq_one_of_pos hpos, Int.cast_one]
  have h52 : (2 : ℚ) ^ ((n.natAbs.log2 : ℤ) - 52) = 2 ^ n.natAbs.log2 / 2 ^ 52 := two_zpow_sub _ 52
  have h51 : (2 : ℚ) ^ ((n.natAbs.log2 : ℤ) - 51) = 2 ^ n.natAbs.log2 / 2 ^ 51 := two_zpow_sub _ 51
  have hmax := leadingDigits_le n.natAbs
  simp only [ofInt, if_neg h]
  split
  case isTrue hfits =>
    simp only [value, decide_eq_true_eq, hsign, h52, mul_div_assoc]
  case isFalse hcarry =>
    have hdigits : leadingDigits n.natAbs = 2 * leastNormal := by omega
    simp only [value, decide_eq_true_eq, hsign, h51, hdigits]
    push_cast
    rw [cast_leastNormal]
    ring

/-- An integer is converted to a number close to it. -/
theorem abs_value_ofInt_sub_le (n : Int) : |(ofInt n).value - n| ≤ |(n : ℚ)| / 2 ^ 53 := by
  by_cases h : n = 0
  · simp [h, ofInt, value]
  · have hsplit : (n : ℚ) = n.sign * n.natAbs := by
      rw [← Int.cast_natCast n.natAbs, ← Int.cast_mul, Int.sign_mul_natAbs]
    have hsign : |(n.sign : ℚ)| = 1 := by
      rw [← Int.cast_abs, Int.abs_eq_natAbs, Int.natAbs_sign_of_ne_zero h]
      rfl
    calc |(ofInt n).value - n|
        = |n.sign * (leadingDigits n.natAbs * 2 ^ n.natAbs.log2 / 2 ^ 52 - n.natAbs : ℚ)| := by
          rw [value_ofInt h, mul_sub, ← hsplit]
      _ = |(leadingDigits n.natAbs * 2 ^ n.natAbs.log2 / 2 ^ 52 - n.natAbs : ℚ)| := by
          rw [abs_mul, hsign, one_mul]
      _ ≤ n.natAbs / 2 ^ 53 := abs_leadingDigits_sub_le (Int.natAbs_ne_zero.2 h)
      _ = |(n : ℚ)| / 2 ^ 53 := by rw [Nat.cast_natAbs, Int.cast_abs]

/-- Half way between two numbers it is the even one. -/
example : ofInt (2 ^ 53 + 1) = ofInt (2 ^ 53) ∧ ofInt (2 ^ 53 + 3) = ofInt (2 ^ 53 + 4) := by decide

/-- No integer but zero is converted to zero. -/
@[simp] theorem isZero_ofInt (n : Int) : (ofInt n).isZero = decide (n = 0) := by
  by_cases h : n = 0
  · simp [h, ofInt, isZero]
  · have hnear := abs_value_ofInt_sub_le n
    have hpos : (0 : ℚ) < |(n : ℚ)| := abs_pos.2 (Int.cast_ne_zero.2 h)
    have hvalue : (ofInt n).value ≠ 0 := by
      intro hzero
      rw [hzero, zero_sub, abs_neg] at hnear
      linarith
    rw [decide_eq_false h, Bool.eq_false_iff, ne_eq, isZero_iff]
    exact hvalue

end Binary64

/-- A number is zero if it looks so as a floating-point number. -/
@[simp] theorem Number.isZero_toBinary64 (n : Number) : n.toBinary64.isZero = n.isZero := by
  cases n with
  | int n => exact Binary64.isZero_ofInt n
  | float x => rfl

end Stencil
