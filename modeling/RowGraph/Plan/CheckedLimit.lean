import RowGraph.Plan.ReadLimit

/-!
# Limits of reads in words

The limit of a read computed with words of 64 bits, as a machine does it: an operation that has no right
result there is a fault.  Products and sums of limits are the operations that stay at the greatest word
instead.
-/

namespace RowGraph

namespace Word

/-- Why an operation on words has no result. -/
inductive Fault where
  | overflow
  | divisionByZero
  deriving DecidableEq, Repr

/-- The greatest word. -/
def greatest : UInt64 := UInt64.ofNat (bound64 - 1)

/-- A word moved to the left by fewer places than it has. -/
def shiftLeft (a places : UInt64) : Except Fault UInt64 :=
  if places < 64 then .ok (a <<< places) else .error .overflow

/-- The quotient without the remainder. -/
def divide (a b : UInt64) : Except Fault UInt64 :=
  if b = 0 then .error .divisionByZero else .ok (a / b)

/-- The product, or the greatest word if it is not a word. -/
def saturatingMul (a b : UInt64) : UInt64 := if a.toNat * b.toNat < bound64 then a * b else greatest

/-- The sum, or the greatest word if it is not a word. -/
def saturatingAdd (a b : UInt64) : UInt64 := if a.toNat + b.toNat < bound64 then a + b else greatest

end Word

namespace ReadLimit

/-- `factor` in words. -/
def checkedFactor (remaining : UInt64) : Except Word.Fault UInt64 :=
  if 31 ≤ remaining then Word.shiftLeft 1 31 else Word.shiftLeft 1 remaining

/-- `inflated` in words. -/
def checkedInflated (modified : Bool) (remaining limit : UInt64) : Except Word.Fault UInt64 := do
  let limit := max limit 1
  let factor ← checkedFactor remaining
  let share ← Word.divide (UInt64.ofNat ceiling) limit
  let scaled := Word.saturatingMul limit (max (min factor share) 1)
  return if modified then Word.saturatingAdd scaled 5 else scaled

/-- `forRead` in words. -/
def checkedForRead (remaining : UInt64) (base : Option UInt64) (hardMax : UInt64) (modified : Bool) :
    Except Word.Fault (Option UInt64) :=
  match base with
  | none => return none
  | some b => do
    let inflated ← checkedInflated modified remaining b
    return some (max b (min hardMax inflated))

end ReadLimit

end RowGraph
