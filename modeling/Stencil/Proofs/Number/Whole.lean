import Mathlib
import Stencil.Proofs.Number.Binary64
import Stencil.Value.Basic

/-!
# Whole numbers

If the value of a floating-point number is whole and inside the bound, the conversion to a 64-bit
integer loses nothing, and the number is written as that integer is. No number but zero is taken for
zero, though a large integer is rounded before it is looked at.
-/

namespace Stencil

namespace Binary64

section

variable {x : Binary64} {n : ℤ} (h : x.value = n)
include h

theorem numerator_eq_of_value : x.numerator = n.natAbs * x.denominator := by
  have habs : (x.numerator / x.denominator : ℚ) = n.natAbs := by
    rw [← abs_value, h, Nat.cast_natAbs, Int.cast_abs]
  rw [div_eq_iff x.cast_denominator_pos.ne'] at habs
  exact_mod_cast habs

theorem isWhole_of_value : x.isWhole = true := by
  rw [isWhole, numerator_eq_of_value h, Nat.mul_mod_left]
  rfl

/-- Nothing is cut off a whole number. -/
theorem truncate_of_value : x.truncate = n := by
  have hdvd : x.denominator ∣ x.numerator := ⟨_, (numerator_eq_of_value h).trans (Nat.mul_comm ..)⟩
  have hmagnitude : ((x.numerator / x.denominator : ℕ) : ℚ) = x.mantissa * 2 ^ x.exponent := by
    rw [Nat.cast_div hdvd x.cast_denominator_pos.ne', numerator_div_denominator]
  have hvalue : (x.truncate : ℚ) = x.value := by
    simp only [truncate, value, ← hmagnitude]
    generalize x.numerator / x.denominator = magnitude
    cases x.negative <;> simp
  rw [h] at hvalue
  exact_mod_cast hvalue

/-- A whole number in the range of 64-bit integers is converted without loss. -/
theorem toInt_toInt64 (lower : -2 ^ 63 ≤ n) (upper : n < 2 ^ 63) : x.toInt64.toInt = n := by
  rw [toInt64, truncate_of_value h]
  exact Int64.toInt_ofIntClamp lower (Int.le_of_lt_add_one upper)

end

end Binary64

namespace Number

/-- The largest 64-bit integer is rounded up, out of the range of 64-bit integers. -/
theorem value_wholeBound : wholeBound.value = 2 ^ 63 := by
  have hbits : wholeBound = ⟨false, Binary64.leastNormal, 11⟩ := by decide
  rw [hbits, Binary64.value, Binary64.cast_leastNormal]
  norm_num

theorem isBelow_wholeBound_iff {x : Binary64} : x.isBelow wholeBound = true ↔ |x.value| < 2 ^ 63 := by
  have hpos : (0 : ℚ) < 2 ^ 63 := by positivity
  rw [Binary64.isBelow_iff, value_wholeBound, abs_of_pos hpos]

theorem intText_eq_repr (n : Int) : intText n = n.repr.toList := by
  cases n with
  | ofNat n => simp [intText, Int.repr, Nat.repr_eq_ofList_toDigits]
  | negSucc n => simp [intText, Int.repr, Nat.repr_eq_ofList_toDigits]

/-- Inside the bound a whole floating-point number is written as the integer. -/
theorem text_float {x : Binary64} {n : Int} (h : x.value = n) (inside : |n| < 2 ^ 63) :
    (Number.float x).text = (Number.int n).text := by
  have hbelow : x.isBelow wholeBound = true := by
    rw [isBelow_wholeBound_iff, h]
    exact_mod_cast inside
  obtain ⟨lower, upper⟩ := abs_lt.1 inside
  simp [text, Binary64.isWhole_of_value h, hbelow, Binary64.toInt_toInt64 h lower.le upper]

end Number

namespace Value

/-- A value that is an integer to whoever reads it: written as the decimal text of the integer, which
can be read back, and shown by a section unless it is zero. -/
structure Represents (v : Value) (n : Int) : Prop where
  output : v.output = n.repr.toList
  readBack : (String.ofList v.output).toInt? = some n
  isTruthy : v.isTruthy = false ↔ n = 0

theorem represents_number {number : Number} {n : Int} (text : number.text = n.repr.toList)
    (zero : number.isZero = true ↔ n = 0) : Represents (.number number) n where
  output := text
  readBack := by rw [output, text, String.ofList_toList, Int.toInt?_repr]
  isTruthy := by simp [Value.isTruthy, zero]

/-- A whole number is written exactly, whatever it is held as. An integer has its decimal text, and so
has a floating-point number of that value inside the bound, which is converted without loss. Neither is
taken for zero unless it is zero. -/
theorem whole_exact :
    (∀ n : Int, Represents (.number (.int n)) n) ∧
      ∀ (x : Binary64) (n : Int), x.value = n → |n| < 2 ^ 63 →
        x.toInt64.toInt = n ∧ Represents (.number (.float x)) n ∧
          (Value.number (.float x)).output = (Value.number (.int n)).output := by
  constructor
  · intro n
    exact represents_number (Number.intText_eq_repr n) (by simp [Number.isZero])
  · intro x n h inside
    obtain ⟨lower, upper⟩ := abs_lt.1 inside
    have htext := Number.text_float h inside
    have hzero : (Number.float x).isZero = true ↔ n = 0 := by
      rw [Number.isZero, Binary64.isZero_iff, h, Int.cast_eq_zero]
    exact ⟨Binary64.toInt_toInt64 h lower.le upper,
      represents_number (htext.trans (Number.intText_eq_repr n)) hzero, htext⟩

/-- The next number to the bound, with a minus sign. -/
theorem whole_exact_nextToBound :
    let x : Binary64 := ⟨true, 2 * Binary64.leastNormal - 1, 10⟩
    let n : Int := -9223372036854774784
    x.value = n ∧ |n| < 2 ^ 63 ∧ x.toInt64.toInt = n ∧
      (Value.number (.float x)).output = "-9223372036854774784".toList ∧
      (String.ofList (Value.number (.float x)).output).toInt? = some n ∧
      (Value.number (.float x)).isTruthy = true := by
  intro x n
  have h : x.value = n := by norm_num [Binary64.value, Binary64.leastNormal, x, n]
  have inside : |n| < 2 ^ 63 := by decide
  obtain ⟨hint, hfloat, -⟩ := whole_exact.2 x n h inside
  exact ⟨h, inside, hint, hfloat.output.trans (by decide), hfloat.readBack, by decide⟩

/-- At the bound the conversion would lose something. -/
example : (Number.wholeBound.toInt64).toInt = 2 ^ 63 - 1 := by decide

end Value
end Stencil
