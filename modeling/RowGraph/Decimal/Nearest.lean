import RowGraph.Decimal.Binary64

/-!
# Decimals as numbers

The number nearest to a decimal, found in exact arithmetic. A decimal whose first digit lies far
beyond all finite numbers, or far below the smallest of them, is settled by that place alone, so
that the exponent need not be small.
-/

namespace RowGraph

namespace Binary64

/-- The places of the first digit, counted from the decimal point, beyond which a number is too
large or too small for any pattern but infinity or zero. -/
def decimalPlaces : Int × Int := (-400, 400)

/-- The number nearest to `digits * 10 ^ exponent`. -/
def ofDecimal (negative : Bool) (digits : Nat) (exponent : Int) : Binary64 :=
  let place : Int := (Nat.toDigits 10 digits).length + exponent
  if digits = 0 ∨ place < decimalPlaces.1 then ofMagnitude negative 0
  else if decimalPlaces.2 < place then ofMagnitude negative infinityBits
  else if 0 ≤ exponent then nearest negative (digits * Nat.pow 10 exponent.toNat) 1
  else nearest negative digits (Nat.pow 10 (-exponent).toNat)

end Binary64

end RowGraph
