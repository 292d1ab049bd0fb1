import RowGraph.Plan.Candidate
import RowGraph.Plan.ReadLimit
import RowGraph.Row.Layout

/-!
# Expanding intervals into slices

Along the components of a layout, points are written out, one slice for every combination of them;
the first range ends a slice, and so does the first component without an interval. A slice is
fitted if every relation in it satisfies all conditions.
-/

namespace RowGraph

/-- A slice that a query reads. -/
structure PlannedRead where
  slice : Slice
  /-- Does every relation in the slice satisfy the conditions? -/
  fitted : Bool
  /-- Do the relations come in the order that the query asks for? -/
  ordered : Bool
  deriving DecidableEq, Repr, Inhabited

/-- What the reads of one layout at one end are made from. -/
structure ReadPlan where
  layout : RelationType
  direction : Direction
  intervals : SortedMap TypeId Interval
  /-- The limit of the query, if it has one. -/
  limit : Option Nat
  /-- Do the intervals say all that the conditions say? -/
  fitted : Bool
  supportsOrder : Bool
  hardMax : Nat
  /-- Has the transaction uncommitted changes? -/
  modified : Bool

namespace ReadPlan

/-- The read for a restriction that uses up `used` intervals, the last of them given. An open upper
end takes in absent values too, which no condition allows. -/
def read (p : ReadPlan) (used : Nat) (restriction : KeyRestriction) (last : Option Interval) :
    Outcome PlannedRead := do
  let fitted := p.fitted && used == p.intervals.size && last.all Interval.hasEnd
  let limit := ReadLimit.forRead (p.intervals.size - used) p.limit p.hardMax p.modified
  let slice ← Layout.typeSlice p.layout p.direction restriction
  return ⟨slice.withLimit limit, fitted, p.supportsOrder⟩

/-- The reads for the given components after `used` of them have been fixed to `points`. -/
def expand (p : ReadPlan) (used : Nat) (points : List Value) (last : Option Interval) :
    (components : List TypeId) → Outcome (List PlannedRead)
  | [] => do return [← p.read used ⟨points, none⟩ last]
  | key :: rest =>
    match p.intervals.get? key with
    | none => do return [← p.read used ⟨points, none⟩ last]
    | some (.range lower upper) => do
      return [← p.read (used + 1) ⟨points, some (lower, upper)⟩ (some (.range lower upper))]
    | some (.points values) => do
      let parts ← values.mapM fun v =>
        p.expand (used + 1) (points ++ [v]) (some (.points values)) rest
      return parts.flatten

/-- All reads of the plan. -/
def reads (p : ReadPlan) : Outcome (List PlannedRead) :=
  p.expand 0 [] none (Candidate.extendedSortKey p.layout p.direction)

end ReadPlan

end RowGraph
