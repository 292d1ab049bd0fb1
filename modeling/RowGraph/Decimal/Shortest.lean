import RowGraph.Decimal.Binary64

/-!
# The fewest decimal digits that read back

Every finite number has an interval of reals that round to it. `Shortest.ofUnits` looks through the
decimal grids from one digit upwards and takes the first grid with a point in the interval: on each
grid only the two neighbours of the number have to be tried. Of two hits the nearer one is taken;
an exact tie is for the caller to decide.
-/

namespace RowGraph

/-- Which of two equally near decimals is written. -/
inductive Tie where
  /-- The larger one. -/
  | up
  /-- The one whose last digit is even. -/
  | even
  deriving DecidableEq, Repr

/-- The decimal `digits * 10 ^ exponent`. -/
structure ShortDecimal where
  digits : Nat
  exponent : Int
  deriving DecidableEq, Repr

namespace Shortest

/-- The number of decimal digits of `n`; one for zero. -/
def width (n : Nat) : Nat := (Nat.toDigits 10 n).length

/-- The number of places before the decimal point of `num / den`; zero or less if it is below one
tenth of one, counting the zeros after the point. -/
def pointPlace (num den : Nat) : Int :=
  if den ≤ num then width (num / den)
  else 1 - (width ((den + num - 1) / num - 1) : Int)

/-- How many units of `2 ^ -1076` make one. -/
def basinUnits : Nat := 4 * Binary64.unitsPerOne

/-- The interval of reals that round to a number, in units of `2 ^ -1076`. -/
structure Basin where
  low : Nat
  value : Nat
  high : Nat
  /-- Do the ends round to the number too? -/
  closed : Bool

/-- The basin of magnitude bits: half a step on either side, a quarter below a power of two, where
the steps get smaller. The ends belong to it if the significand is even. -/
def basin (m : Nat) : Basin :=
  let step := Nat.pow 2 (Binary64.scale m)
  let value := 4 * (Binary64.significand m * step)
  let below :=
    if m % Binary64.fractionBound = 0 ∧ 2 ≤ m / Binary64.fractionBound then step else 2 * step
  ⟨value - below, value, value + 2 * step, Binary64.significand m % 2 == 0⟩

/-- Does `p / q`, in the basin's units, lie in the basin? -/
def Basin.holds (b : Basin) (p q : Nat) : Bool :=
  if b.closed then decide (b.low * q ≤ p) && decide (p ≤ b.high * q)
  else decide (b.low * q < p) && decide (p < b.high * q)

/-- The point of the grid `10 ^ k` that is written for the basin's number, if one lies in it. -/
def onGrid (tie : Tie) (b : Basin) (k : Int) : Option Nat :=
  -- the grid distance is `step / q` in the basin's units
  let step := if 0 ≤ k then Nat.pow 10 k.toNat * basinUnits else basinUnits
  let q := if 0 ≤ k then 1 else Nat.pow 10 (-k).toNat
  let a := b.value * q / step
  let down := b.holds (a * step) q
  let up := b.holds ((a + 1) * step) q
  let twice := 2 * (b.value * q)
  let middle := (2 * a + 1) * step
  if down && up then
    if twice < middle then some a
    else if middle < twice then some (a + 1)
    else match tie with
      | .up => some (a + 1)
      | .even => some (a + a % 2)
  else if down then some a
  else if up then some (a + 1)
  else none

/-- Tries the grids with `n`, `n + 1`, … digits down from the point place. With none there is only
the power of ten above the number to hit. -/
def search (tie : Tie) (b : Basin) (place : Int) (n : Nat) : (left : Nat) → ShortDecimal
  | 0 => ⟨0, 0⟩
  | left + 1 =>
    match onGrid tie b (place - n) with
    | some a => ⟨a, place - n⟩
    | none => search tie b place (n + 1) left

/-- The shortest decimal of a finite number that is not zero, without its sign. Seventeen digits
always suffice. -/
def ofNumber (tie : Tie) (x : Binary64) : ShortDecimal :=
  let b := basin x.magnitude
  search tie b (pointPlace b.value basinUnits) 0 18

end Shortest

end RowGraph
