import RowGraph.Answer.Merge
import RowGraph.Answer.Row
import RowGraph.Answer.VertexList
import RowGraph.Plan.Query

/-!
# Answers for any vertex

A partitioned vertex is asked of each of its representatives, and the answers are merged in the
order that the query asks for. If all types that are asked for are unique it is asked of the
canonical representative alone. Results that several representatives return may be dropped but for
the first.
-/

namespace RowGraph

/-- A compiled query with what else decides how it is run. -/
structure Execution where
  query : CompiledQuery
  adjacent : Option Adjacent
  /-- Must the answer come from the store alone? -/
  onlyLoaded : Bool
  /-- Is only the row of the vertex itself read, even if it is partitioned? -/
  onlyGivenVertex : Bool
  restrictToPartitions : Bool
  /-- Are all types that are asked for unique? -/
  uniqueTypes : Bool
  deriving Repr, Inhabited

/-- The items of a list with a key that no earlier one has. -/
def firstByKey {α κ : Type} [Ord κ] [Std.TransOrd κ] (key : α → κ) :
    (seen : SortedMap κ Unit) → List α → List α
  | _, [] => []
  | seen, item :: rest =>
    if seen.contains (key item) then firstByKey key seen rest
    else item :: firstByKey key (seen.put (key item) ()) rest

namespace Execution

variable {σ : Type}

/-- Is a vertex asked of each of its representatives? -/
def isFannedOut (e : Execution) (view : GraphView σ) (v : VertexId) : Bool :=
  !e.onlyGivenVertex && !e.uniqueTypes && view.isPartitioned v

/-- The row in which a vertex is asked that is not fanned out. -/
def rowOf (e : Execution) (view : GraphView σ) (v : VertexId) : VertexId :=
  if !e.onlyGivenVertex && view.isPartitioned v then view.canonical v else v

/-- The relations of one row. -/
def individual (e : Execution) (view : GraphView σ) (v : VertexId) : Act σ (List Relation) :=
  if e.query.isSimple && (e.onlyLoaded || view.isLoaded v) then view.simple v e.query
  else view.general v e.query (e.query.bind v e.adjacent)

/-- Drops results with a key that was seen before, if the view asks for it. -/
def dedup {α κ : Type} [Ord κ] [Std.TransOrd κ] (view : GraphView σ) (key : α → κ)
    (results : List α) : List α :=
  if view.dedup then firstByKey key .empty results else results

/-- The relations of all representatives, each with the one that it came from, merged and cut. -/
def merged (e : Execution) (view : GraphView σ) (v : VertexId) :
    Act σ (List (VertexId × Relation)) := do
  let streams ← (view.representatives v e.restrictToPartitions).mapM fun rep => do
    return (← e.individual view rep).map fun r => (rep, r)
  let all := mergeStreams (fun a b => e.query.order.cmp v a.2 b.2) streams
  return ReadLimit.cut e.query.limit (dedup view (fun r => r.2.id) all)

/-- The relations of a vertex. -/
def relations (e : Execution) (view : GraphView σ) (v : VertexId) : Act σ (List Relation) := do
  if e.isFannedOut view v then
    return (← e.merged view v).map (·.2)
  else
    e.individual view (e.rowOf view v)

/-- The vertices at the other ends of relations. -/
def otherEnds (v : VertexId) (relations : List Relation) : List VertexId :=
  relations.filterMap fun r => r.otherVertex? v

/-- The vertices at the other ends of merged relations. -/
def mergedEnds (results : List (VertexId × Relation)) : List VertexId :=
  results.filterMap fun r => r.2.otherVertex? r.1

/-- The vertices adjacent to one row. -/
def adjacentTo (e : Execution) (view : GraphView σ) (row : VertexId) : Act σ (List VertexId) := do
  return otherEnds row (← e.individual view row)

/-- The vertices adjacent to a vertex. Without an order the vertices that the representatives return
come in increasing order. -/
def vertices (e : Execution) (view : GraphView σ) (v : VertexId) : Act σ (List VertexId) := do
  if !e.isFannedOut view v then
    e.adjacentTo view (e.rowOf view v)
  else if !e.query.order.isEmpty then
    return mergedEnds (← e.merged view v)
  else
    let streams ← (view.representatives v e.restrictToPartitions).mapM fun rep => do
      return (← e.adjacentTo view rep).mergeSort fun a b => (compare a b).isLE
    return ReadLimit.cut e.query.limit (dedup view id (mergeStreams compare streams))

/-- Adds vertices to a list, without those that were seen before if the view asks for it. -/
def gather (view : GraphView σ) :
    VertexList × SortedMap VertexId Unit → List VertexId → VertexList × SortedMap VertexId Unit
  | found, [] => found
  | (list, seen), v :: rest =>
    if view.dedup && seen.contains v then gather view (list, seen) rest
    else gather view (list.add v, seen.put v ()) rest

/-- The vertices adjacent to representatives, one after another, until there are enough. -/
def gatherFrom (e : Execution) (view : GraphView σ) :
    VertexList × SortedMap VertexId Unit → List VertexId → Act σ VertexList
  | (list, _), [] => return list
  | found, rep :: rest => do
    let found := gather view found (← e.adjacentTo view rep)
    if e.query.limit ≤ found.1.size then return found.1 else e.gatherFrom view found rest

/-- The vertices adjacent to a vertex, as a list that knows whether it is sorted. -/
def vertexIds (e : Execution) (view : GraphView σ) (v : VertexId) : Act σ VertexList := do
  if !e.isFannedOut view v then
    return .ofIds (← e.adjacentTo view (e.rowOf view v))
  else if !e.query.order.isEmpty then
    return .collect (mergedEnds (← e.merged view v))
  else
    let list ← e.gatherFrom view (.empty, .empty)
      (view.representatives v e.restrictToPartitions)
    return list.truncate e.query.limit

end Execution

end RowGraph
