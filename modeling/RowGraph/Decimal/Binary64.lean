import RowGraph.Word

/-!
# Binary floating-point numbers of 64 bits

A `Binary64` is a bit pattern: a sign, an exponent field of 11 bits and a fraction of 52. Its finite
values are whole multiples of `2 ^ -1074`, which `units` counts, so that every operation here is
exact arithmetic on natural numbers followed by one rounding to the nearest pattern, a tie going to
the even one. Two orders are kept apart: `rank` tells all patterns apart, `level` compares values.
-/

namespace RowGraph

/-- A 64-bit floating-point number by its bits. -/
structure Binary64 where
  bits : UInt64
  deriving DecidableEq, Repr, Inhabited

namespace Binary64

/-- The pattern of the sign bit. -/
def signBit : Nat := Word.bound63

/-- Fractions are below this, two to the power of 52. -/
def fractionBound : Nat := 4503599627370496

/-- The magnitude bits of infinity; above them lie the patterns that are not a number. -/
def infinityBits : Nat := 2047 * fractionBound

/-- Is the sign bit set? -/
def isNegative (x : Binary64) : Bool := decide (signBit ≤ x.bits.toNat)

/-- All bits but the sign; they order the magnitudes. -/
def magnitude (x : Binary64) : Nat := x.bits.toNat % signBit

/-- Is the pattern not a number? -/
def isNaN (x : Binary64) : Bool := decide (infinityBits < x.magnitude)

/-- Is it an infinity? -/
def isInfinite (x : Binary64) : Bool := x.magnitude == infinityBits

/-- Does it stand for a number? -/
def isFinite (x : Binary64) : Bool := decide (x.magnitude < infinityBits)

/-- Is it one of the two zeros? -/
def isZero (x : Binary64) : Bool := x.magnitude == 0

/-- The pattern with the given sign and magnitude bits. -/
def ofMagnitude (negative : Bool) (m : Nat) : Binary64 :=
  ⟨UInt64.ofNat (if negative then signBit + m else m)⟩

/-- The pattern with the sign turned. -/
def negate (x : Binary64) : Binary64 := ofMagnitude (!x.isNegative) x.magnitude

/-- The exponent field of magnitude bits, counted from the smallest scale. -/
def scale (m : Nat) : Nat := m / fractionBound - 1

/-- The whole number that magnitude bits hold before scaling: the fraction, with the leading one
that all but the smallest numbers have. -/
def significand (m : Nat) : Nat :=
  if m / fractionBound = 0 then m % fractionBound else fractionBound + m % fractionBound

/-- The size of a finite number in units of `2 ^ -1074`. -/
def units (x : Binary64) : Nat := significand x.magnitude * Nat.pow 2 (scale x.magnitude)

/-- How many units make one. -/
def unitsPerOne : Nat := Nat.pow 2 1074

/-- The quotient rounded to the nearest whole number, a tie to the even one. -/
def roundHalfEven (num den : Nat) : Nat :=
  let q := num / den
  let r := num % den
  if 2 * r < den then q else if den < 2 * r then q + 1 else q + q % 2

/-- The magnitude bits nearest to `num / den` units: the quotient is rounded at the scale of its
leading bit, and what exceeds the finite numbers becomes infinity. -/
def nearestBits (num den : Nat) : Nat :=
  let e := Nat.log2 (num / den) - 52
  min (e * fractionBound + roundHalfEven num (den * Nat.pow 2 e)) infinityBits

/-- The number nearest to `num / den`. -/
def nearest (negative : Bool) (num den : Nat) : Binary64 :=
  ofMagnitude negative (nearestBits (num * unitsPerOne) den)

/-- The number nearest to a natural number. -/
def ofNat (n : Nat) : Binary64 := nearest false n 1

/-- The number nearest to a whole number. -/
def ofInt (i : Int) : Binary64 := nearest (decide (i < 0)) i.natAbs 1

/-- The nearest sum of two numbers that are not negative. -/
def add (x y : Binary64) : Binary64 :=
  if x.isFinite && y.isFinite then nearest false (x.units + y.units) unitsPerOne
  else ofMagnitude false infinityBits

/-- The nearest product of two numbers that are not negative. -/
def mul (x y : Binary64) : Binary64 :=
  if x.isFinite && y.isFinite then nearest false (x.units * y.units) (unitsPerOne * unitsPerOne)
  else ofMagnitude false infinityBits

/-- The nearest quotient of two finite numbers that are not negative; over zero it is infinite. -/
def div (x y : Binary64) : Binary64 :=
  if y.isZero then ofMagnitude false infinityBits else nearest false x.units y.units

/-- The place of a pattern in the order of all patterns: negative ones from the largest magnitude
down, then the positive ones. -/
def rank (x : Binary64) : Int :=
  if x.isNegative then -(x.magnitude : Int) - 1 else x.magnitude

instance : Ord Binary64 := ⟨fun x y => compare x.rank y.rank⟩

/-- The place of a number among the numbers; both zeros have the same. -/
def level (x : Binary64) : Int := if x.isNegative then -(x.magnitude : Int) else x.magnitude

/-- Compares as numbers; a pattern that is not a number compares with nothing. -/
def compareValues? (x y : Binary64) : Option Ordering :=
  if x.isNaN || y.isNaN then none else some (compare x.level y.level)

end Binary64

end RowGraph
