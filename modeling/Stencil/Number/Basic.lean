import Stencil.Number.Shortest

/-!
# Numbers

A view number is an integer or a finite binary floating-point number. A whole number is written as
an integer whatever it is held as, up to the bound; any other number is written as its shortest
decimal.
-/

namespace Stencil

inductive Number
  | int (value : Int)
  | float (value : Binary64)
  deriving DecidableEq, Repr

namespace Number

def isZero : Number → Bool
  | .int n => n = 0
  | .float x => x.isZero

/-- The number as a floating-point number, to which a large integer is rounded. -/
def toBinary64 : Number → Binary64
  | .int n => .ofInt n
  | .float x => x

def intText (n : Int) : Text :=
  if n < 0 then '-' :: Nat.toDigits 10 n.natAbs else Nat.toDigits 10 n.natAbs

/-- Magnitudes from here on are not written as integers when held as floating-point numbers: the largest
64-bit integer, rounded. -/
def wholeBound : Binary64 :=
  .ofInt Int64.maxValue.toInt

/-- The smallest power of ten of a first digit that is still written with a point and no exponent.
-/
def leastPositional : Int := -5

def zeros (n : Nat) : Text :=
  List.replicate n '0'

/-- Digits with a point at its place. The digits reach past the point. -/
def positional (d : Decimal) : Text :=
  if 0 ≤ d.exponent then
    let count := d.exponent.toNat + 1
    d.digits.take count ++ '.' :: d.digits.drop count
  else '0' :: '.' :: zeros ((-d.exponent).toNat - 1) ++ d.digits

/-- One digit before the point, and the exponent with its sign. -/
def scientific (d : Decimal) : Text :=
  let point := if d.digits.length ≤ 1 then [] else '.' :: d.digits.drop 1
  let sign := if 0 ≤ d.exponent then '+' else '-'
  d.digits.take 1 ++ point ++ 'e' :: sign :: Nat.toDigits 10 d.exponent.natAbs

def magnitudeText (x : Binary64) : Text :=
  let d := Decimal.shortest x
  if !x.isWhole && leastPositional ≤ d.exponent then positional d else scientific d

def floatText (x : Binary64) : Text :=
  if x.negative then '-' :: magnitudeText x else magnitudeText x

def text : Number → Text
  | .int n => intText n
  | .float x =>
    if x.isWhole && x.isBelow wholeBound then intText x.toInt64.toInt else floatText x

end Number
end Stencil
