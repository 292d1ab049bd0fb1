/-!
# Ranges of characters

A class of characters is given by closed ranges of code points.
-/

namespace RowGraph.Text

/-- Does `c` lie in one of the ranges? -/
def inRanges (ranges : List (Nat × Nat)) (c : Char) : Bool :=
  ranges.any (fun r => decide (r.1 ≤ c.toNat) && decide (c.toNat ≤ r.2))

end RowGraph.Text
