import Stencil.Text.Basic
import Stencil.Number.Binary64

/-!
# The shortest decimal that reads back

Of all decimals that round to a binary number, the one with the fewest digits, and of those the
nearest; an exact tie goes to the even digit. The decimals that round to the number fill an interval
up to half way to its neighbours, with the ends if the mantissa is even. On each decimal grid only
the two points next to the number can be the answer.
-/

namespace Stencil

/-- Significant digits, the first and the last not zero, and the power of ten of the first. -/
structure Decimal where
  digits : Text
  exponent : Int
  deriving DecidableEq, Repr

namespace Decimal

/-- A positive magnitude between its half-way points: the three times a power of two. -/
structure Interval where
  low : Nat
  value : Nat
  high : Nat
  exponent : Int
  closed : Bool

def Interval.ofBinary (x : Binary64) : Interval where
  low := 4 * x.mantissa - if x.isPowerStep then 1 else 2
  value := 4 * x.mantissa
  high := 4 * x.mantissa + 2
  exponent := x.exponent - 2
  closed := x.mantissa % 2 = 0

/-- The factor of a bound over the unit `10 ^ place`, as numerator and denominator. -/
def scale (exponent place : Int) : Nat × Nat :=
  (Nat.pow 2 exponent.toNat * Nat.pow 10 (-place).toNat,
    Nat.pow 2 (-exponent).toNat * Nat.pow 10 place.toNat)

/-- Whether `n` units of a grid lie in the interval. -/
def Interval.holds (i : Interval) (num den n : Nat) : Bool :=
  if i.closed then i.low * num ≤ n * den && n * den ≤ i.high * num
  else i.low * num < n * den && n * den < i.high * num

/-- The nearer of the two grid points next to the number that lie in the interval. -/
def Interval.onGrid? (i : Interval) (place : Int) : Option Nat :=
  let (num, den) := scale i.exponent place
  let below := i.value * num / den
  let above := below + 1
  match i.holds num den below, i.holds num den above with
  | true, true =>
    let down := i.value * num - below * den
    let up := above * den - i.value * num
    some (if down < up || (down = up && below % 2 = 0) then below else above)
  | true, false => some below
  | false, true => some above
  | false, false => none

/-- The power of ten of the first digit of a positive fraction. -/
def leadingPlace (num den : Nat) : Int :=
  if den ≤ num then (Nat.toDigits 10 (num / den)).length - 1
  else -(Nat.toDigits 10 ((den + num - 1) / num - 1)).length

def dropZeros (digits : Text) : Text :=
  (digits.reverse.dropWhile (· == '0')).reverse

/-- `n` units of the grid `10 ^ place`. -/
def ofGrid (n : Nat) (place : Int) : Decimal :=
  let digits := Nat.toDigits 10 n
  ⟨dropZeros digits, digits.length - 1 + place⟩

/-- The shortest decimal of a positive magnitude; 17 digits always suffice. -/
def shortest (x : Binary64) : Decimal :=
  let i := Interval.ofBinary x
  let (num, den) := scale i.exponent 0
  let first := leadingPlace (i.value * num) den
  let candidate? (count : Nat) : Option Decimal :=
    let place := first - count
    (i.onGrid? place).map (ofGrid · place)
  ((List.range 17).findSome? candidate?).getD ⟨[], 0⟩

end Decimal
end Stencil
