import RowGraph.Constraint.Condition
import RowGraph.Constraint.Interval
import RowGraph.SortedMap

/-!
# Absorbing conditions into intervals

Of a conjunction, the comparisons with a value and the disjunctions of equalities say for a key in
which interval its value lies. `KeyIntervals.ofConditions` collects these intervals and tells
whether they say everything that the conditions do.
-/

namespace RowGraph

/-- The vertex that an edge must lead to. -/
inductive Adjacent where
  /-- A vertex known to the store. -/
  | persisted (v : VertexId)
  /-- A vertex created in the present transaction, of which the store knows nothing. -/
  | uncommitted (v : VertexId)
  deriving DecidableEq, Repr

/-- The vertex. -/
def Adjacent.vertex : Adjacent → VertexId
  | .persisted v => v
  | .uncommitted v => v

/-- Intervals of keys. -/
structure KeyIntervals where
  intervals : SortedMap TypeId Interval
  /-- Do the intervals say all that the conditions say? -/
  fitted : Bool
  deriving DecidableEq, Repr, Inhabited

namespace KeyIntervals

/-- Has some key no value left? -/
def isUnsatisfiable (k : KeyIntervals) : Bool := k.intervals.values.any Interval.isEmpty

/-- The value of a key also lies in an interval. -/
def narrow (k : KeyIntervals) (key : TypeId) (i : Interval) : KeyIntervals :=
  let merged := match k.intervals.get? key with
    | some present => present.intersect i
    | none => i
  { k with intervals := k.intervals.put key merged }

/-- The interval of the values that compare with `v`. -/
def ofComparison? (c : Comparison) (v : Value) : Option Interval :=
  match c with
  | .eq => some (.point v)
  | .ne => none
  | .lt => some (.between .unbounded (.excluded v))
  | .le => some (.between .unbounded (.included v))
  | .gt => some (.between (.excluded v) .unbounded)
  | .ge => some (.between (.included v) .unbounded)

/-- The key that a condition speaks of and its interval, if that is all it says. -/
def ofCondition? : Condition → Option (TypeId × Interval)
  | .or alternatives =>
    (Condition.equalityPoints? alternatives).map fun (key, values) => (key, .ofValues values)
  | .predicate key comparison (some v) => (ofComparison? comparison v).map fun i => (key, i)
  | _ => none

/-- Takes a condition in. -/
def absorb (k : KeyIntervals) (c : Condition) : KeyIntervals :=
  match ofCondition? c with
  | some (key, i) => k.narrow key i
  | none => { k with fitted := false }

/-- Takes the adjacent vertex in: a known one is the only value of its implicit key. -/
def absorbAdjacent (k : KeyIntervals) : Option Adjacent → KeyIntervals
  | none => k
  | some (.persisted v) => k.narrow ImplicitKey.adjacent.typeId (.point (.vertex v))
  | some (.uncommitted _) => { k with fitted := false }

/-- The intervals that conditions and an adjacent vertex leave to the keys. -/
def ofConditions (conditions : List Condition) (adjacent : Option Adjacent) : KeyIntervals :=
  (conditions.foldl absorb ⟨.empty, true⟩).absorbAdjacent adjacent

end KeyIntervals

end RowGraph
