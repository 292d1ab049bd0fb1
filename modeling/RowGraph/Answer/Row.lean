import RowGraph.Plan.Compiled
import RowGraph.GraphTx

/-!
# Answers from one row

A simple query is answered by reading its slice. In general every slice is read, what the slice does
not make sure of is checked, removed relations are left out and added ones put in, and the results
are sorted and cut. If filtering leaves too few of a read that filled its limit, the slice is read
again with a larger limit, up to the greatest allowed.
-/

namespace RowGraph

/-- What queries see of a transaction. -/
structure GraphView (σ : Type) where
  /-- The greatest limit of a read that is made up for filtering. -/
  hardMax : Nat
  /-- Are results that several representatives return dropped but for the first? -/
  dedup : Bool
  /-- The relations in a slice of the row of a vertex. -/
  read : VertexId → Slice → Act σ (List Relation)
  /-- The added relations at a vertex. -/
  addedAt : VertexId → List Relation
  isRemoved : RelationId → Bool
  /-- Has the vertex no local change? -/
  isLoaded : VertexId → Bool
  isPartitioned : VertexId → Bool
  /-- The representatives of a vertex, perhaps only the local ones. -/
  representatives : VertexId → Bool → List VertexId
  canonical : VertexId → VertexId

/-- What queries see of a graph transaction. -/
def GraphTx.view {σ S T : Type} [Timed σ] [Metered σ] (b : Backend σ S T) (g : GraphTx S T) :
    GraphView σ where
  hardMax := g.settings.query.hardMaxLimit
  dedup := g.settings.query.partitionDedup
  read := g.readSlice b
  addedAt := g.addedAt
  isRemoved := g.isRemoved
  isLoaded := g.isLoaded
  isPartitioned := g.isPartitioned
  representatives := g.representatives
  canonical := g.canonical

namespace GraphView

variable {σ : Type}

/-- The relations of a read that count: not removed, and satisfying the condition unless the slice
makes sure of that. -/
def kept (view : GraphView σ) (v : VertexId) (condition : Condition) (fitted : Bool)
    (relations : List Relation) : List Relation :=
  relations.filter fun r => !view.isRemoved r.id && (fitted || condition.evaluate r v)

/-- Reads a slice with a limit, and again with a larger one as long as the limit was filled and
fewer than `target` relations count. -/
def readUntil (view : GraphView σ) (v : VertexId) (condition : Condition) (r : PlannedRead)
    (target limit : Nat) : Act σ (List Relation) := do
  let found ← view.read v (r.slice.withLimit (some limit))
  let kept := view.kept v condition r.fitted found
  let larger := ReadLimit.next limit view.hardMax
  if limit ≤ found.length ∧ kept.length < target ∧ limit < larger then
    readUntil view v condition r target larger
  else
    return kept
termination_by view.hardMax - limit
decreasing_by
  rename_i h
  have : ReadLimit.next limit view.hardMax ≤ view.hardMax := Nat.min_le_right ..
  have : limit < ReadLimit.next limit view.hardMax := h.2.2
  omega

/-- The relations of one planned read that count. An unordered read of an ordered query goes as far
as it may. -/
def readAll (view : GraphView σ) (v : VertexId) (q : CompiledQuery) (condition : Condition)
    (r : PlannedRead) : Act σ (List Relation) := do
  match r.slice.limit with
  | none =>
    let found ← view.read v r.slice
    return view.kept v condition r.fitted found
  | some limit =>
    let sortedLater := !r.ordered && !q.order.isEmpty
    view.readUntil v condition r q.limit (if sortedLater then max limit view.hardMax else limit)

/-- The answer to a query by reading its slices and looking at the local changes. -/
def general (view : GraphView σ) (v : VertexId) (q : CompiledQuery) (condition : Condition) :
    Act σ (List Relation) := do
  let parts ← q.reads.mapM (view.readAll v q condition)
  let added := (view.addedAt v).filter fun r => condition.evaluate r v
  let results := parts.flatten ++ added
  let sorted := if q.order.isEmpty then results else q.order.sort v results
  return ReadLimit.cut q.limit sorted

/-- The answer to a simple query by reading its slice alone. -/
def simple (view : GraphView σ) (v : VertexId) (q : CompiledQuery) : Act σ (List Relation) := do
  match q.reads with
  | [] => return []
  | r :: _ => return ReadLimit.cut q.limit (← view.read v r.slice)

end GraphView

end RowGraph
