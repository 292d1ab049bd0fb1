import RowGraph.Constraint.Absorption
import RowGraph.Plan.ResultOrder
import RowGraph.Schema

/-!
# Choosing a layout

The relations of a type can be read through the layout of the type or through any of its indexes. A
candidate scores for every leading component of its extended sort key whose interval is known: five
over the number of points, or one for a range, at which the walk ends. Results that come in the
order that the query asks for score three more. The first of the best candidates is chosen.
-/

namespace RowGraph

/-- What a candidate is worth. -/
structure CandidateScore where
  score : Binary64
  /-- Do results come in the order that the query asks for? -/
  supportsOrder : Bool
  deriving DecidableEq, Repr, Inhabited

namespace Candidate

/-- The components of the columns of a layout at an end: the sort key, then the adjacent vertex for
edges that are not unique there, then the id where nothing limits the relations. -/
def extendedSortKey (t : RelationType) (d : Direction) : List TypeId :=
  if t.multiplicity.isUnique d then t.sortKey
  else
    t.sortKey ++ (if t.isEdgeLabel then [ImplicitKey.adjacent.typeId] else []) ++
      (if t.multiplicity.isConstrained then [] else [ImplicitKey.id.typeId])

/-- The score of `n` points: five over their number. -/
def pointScore (n : Nat) : Binary64 := (Binary64.ofNat 5).div (.ofNat n)

/-- Walks the components: the score so far, and the order keys that were not met yet. -/
def walk (intervals : SortedMap TypeId Interval) (score : Binary64) (wanted : List TypeId) :
    List TypeId → Binary64 × List TypeId
  | [] => (score, wanted)
  | key :: rest =>
    let wanted := if wanted.head? = some key then wanted.tail else wanted
    match intervals.get? key with
    | none => (score, wanted)
    | some (.range _ _) => (score.add (.ofNat 1), wanted)
    | some (.points values) =>
      walk intervals (score.add (pointScore values.length)) wanted rest

/-- The score of a candidate. -/
def score (t : RelationType) (d : Direction) (intervals : SortedMap TypeId Interval)
    (order : ResultOrder) : CandidateScore :=
  let (walked, unmet) := walk intervals (.ofNat 0) order.keys (extendedSortKey t d)
  let sameDirection := order.isEmpty || order.direction == some t.sortOrder
  let supportsOrder := sameDirection && unmet.isEmpty
  ⟨if supportsOrder then walked.add (.ofNat 3) else walked, supportsOrder⟩

/-- The type and its indexes, in the order of their definition. -/
def all (schema : Schema) (t : RelationType) : Outcome (List RelationType) := do
  let indexes ← schema.indexesOver t
  return t :: indexes

/-- May a candidate for type `t` be read at end `d`? It must be kept there, and an index must be
enabled. -/
def isEligible (t : RelationType) (d : Direction) (candidate : RelationType) : Bool :=
  (candidate.isDirected .both || candidate.isDirected d) &&
    (candidate.id == t.id || candidate.status == .enabled)

/-- The better of the best candidate so far and another one. -/
def better (best : Option (RelationType × CandidateScore)) (other : RelationType × CandidateScore) :
    Option (RelationType × CandidateScore) :=
  match best with
  | none => some other
  | some b => if compare b.2.score other.2.score == .lt then some other else some b

/-- The candidate through which relations of type `t` are read at end `d`. -/
def select (schema : Schema) (t : RelationType) (d : Direction)
    (intervals : SortedMap TypeId Interval) (order : ResultOrder) :
    Outcome (RelationType × CandidateScore) := do
  let candidates ← all schema t
  let eligible := candidates.filter (isEligible t d)
  match (eligible.map fun c => (c, score c d intervals order)).foldl better none with
  | some best => return best
  | none => throw (.unsatisfiable t.name)

end Candidate

end RowGraph
