/-!
# Binary floating-point numbers

A finite number of the 64-bit format is a sign and a whole mantissa times a power of two. It is
decoded from its bits, so that everything said about it is exact arithmetic.
-/

namespace Stencil

/-- The number `mantissa * 2 ^ exponent`, negative if so marked; zero has both signs. -/
structure Binary64 where
  negative : Bool
  mantissa : Nat
  exponent : Int
  deriving DecidableEq, Repr

namespace Binary64

/-- The exponent of the smallest numbers. -/
def minExponent : Int := -1074

/-- The smallest mantissa of a number in normal form. -/
def leastNormal : Nat := Nat.pow 2 52

/-- Decodes the bits of a number; infinities and what is not a number have no value. -/
def ofBits (bits : UInt64) : Option Binary64 :=
  let negative : Bool := bits.toNat / Nat.pow 2 63 = 1
  let biased : Nat := bits.toNat / leastNormal % 2048
  let fraction : Nat := bits.toNat % leastNormal
  if biased = 2047 then none
  else if biased = 0 then some ⟨negative, fraction, minExponent⟩
  else some ⟨negative, leastNormal + fraction, minExponent + biased - 1⟩

/-- The magnitude is a fraction with this numerator over a power of two. -/
def numerator (x : Binary64) : Nat :=
  x.mantissa * Nat.pow 2 x.exponent.toNat

def denominator (x : Binary64) : Nat :=
  Nat.pow 2 (-x.exponent).toNat

theorem denominator_pos (x : Binary64) : 0 < x.denominator :=
  Nat.two_pow_pos _

/-- Whether nothing stands after the point. -/
def isWhole (x : Binary64) : Bool :=
  x.numerator % x.denominator = 0

/-- Whether the magnitude is less than that of the other number. -/
def isBelow (x y : Binary64) : Bool :=
  x.numerator * y.denominator < y.numerator * x.denominator

/-- What stands before the point, with its sign. -/
def truncate (x : Binary64) : Int :=
  let magnitude := x.numerator / x.denominator
  if x.negative then -(magnitude : Int) else magnitude

/-- The conversion to a 64-bit integer. It cuts off what stands after the point, and past an end of the
range it gives that end. -/
def toInt64 (x : Binary64) : Int64 :=
  .ofIntClamp x.truncate

def isZero (x : Binary64) : Bool :=
  x.mantissa = 0

/-- The quotient rounded to the nearest whole number; half way goes to the even one. -/
def divToEven (n d : Nat) : Nat :=
  let below := n / d
  let rest := n % d
  if 2 * rest < d || (2 * rest = d && below % 2 = 0) then below else below + 1

/-- The first digits of a positive integer, as many as a mantissa has, and rounded. -/
def leadingDigits (magnitude : Nat) : Nat :=
  divToEven (magnitude * leastNormal) (Nat.pow 2 magnitude.log2)

/-- The number nearest to an integer. -/
def ofInt (n : Int) : Binary64 :=
  let place := n.natAbs.log2
  let digits := leadingDigits n.natAbs
  if n = 0 then ⟨false, 0, minExponent⟩
  else if digits < 2 * leastNormal then ⟨n < 0, digits, place - 52⟩
  else ⟨n < 0, leastNormal, place - 51⟩

/-- Whether the next smaller magnitude lies only half as far away as the next larger one. -/
def isPowerStep (x : Binary64) : Bool :=
  x.mantissa = leastNormal && minExponent < x.exponent

end Binary64
end Stencil
