import RowGraph.Row.Layout
import RowGraph.Row.Mutation
import RowGraph.Settings
import RowGraph.Storage.Backend
import RowGraph.Storage.Metrics
import RowGraph.Storage.Retry

/-!
# Graph transactions

A graph transaction reads and writes relations through one store of a backend. Relations that are
added and removed stay in memory until the commit writes them all in one batch. A vertex may be
partitioned over several representatives, of which some may be local; the first is canonical.
-/

namespace RowGraph

/-- A graph transaction. `S` refers to opened stores, `T` to transactions of the backend. -/
structure GraphTx (S T : Type) where
  store : S
  storeName : String
  /-- The transaction of the backend, until this one has ended. -/
  tx : Option T
  settings : Settings
  /-- The relations added, in order. -/
  added : List Relation
  /-- The stored relations removed. -/
  removed : SortedMap RelationId Relation
  /-- The vertices of all relations that were added or removed. -/
  modified : SortedMap VertexId Unit
  partitions : SortedMap VertexId (List VertexId)
  /-- The representatives in local partitions, if only these are local. -/
  localPartitions : Option (List VertexId)
  labels : SortedMap VertexId String

namespace GraphTx

variable {σ S T α : Type}

/-- The transaction has ended. -/
def isClosed : Failure := .invalid "transaction is closed"

/-- Opens a store and begins a transaction. -/
def start (b : Backend σ S T) (storeName : String) (settings : Settings) :
    Act σ (GraphTx S T) := do
  Act.ofOutcome settings.validate
  let store ← b.openStore storeName
  let tx ← b.beginTx .none
  return {
    store := store
    storeName := storeName
    tx := some tx
    settings := settings
    added := []
    removed := .empty
    modified := .empty
    partitions := .empty
    localPartitions := none
    labels := .empty }

/-- The transaction of the backend. -/
def openTx (g : GraphTx S T) : Outcome T :=
  match g.tx with
  | some tx => .ok tx
  | none => .error isClosed

/-- The number of the transaction of the backend. -/
def txId (b : Backend σ S T) (g : GraphTx S T) : Act σ Nat := do
  let tx ← Act.ofOutcome g.openTx
  Act.asks (b.txId tx)

/-! ## Local changes -/

/-- The ends of a relation count as modified. -/
def touch (g : GraphTx S T) (r : Relation) : GraphTx S T :=
  let modified := g.modified.put r.outVertex ()
  { g with modified := match r.inVertex with
      | some v => modified.put v ()
      | none => modified }

/-- Adds a relation. -/
def add (g : GraphTx S T) (r : Relation) : GraphTx S T :=
  { g.touch r with added := g.added ++ [r] }

/-- Removes a relation. One that was added in this transaction is simply dropped. -/
def remove (g : GraphTx S T) (r : Relation) : GraphTx S T :=
  let kept := g.added.filter fun a => a.id != r.id
  let g := g.touch r
  if kept.length = g.added.length then { g with removed := g.removed.put r.id r }
  else { g with added := kept }

/-- Nothing added, nothing removed. -/
def forget (g : GraphTx S T) : GraphTx S T :=
  { g with added := [], removed := .empty, modified := .empty }

/-- Is there any local change? -/
def hasModifications (g : GraphTx S T) : Bool := !g.added.isEmpty || !g.removed.isEmpty

/-- Has the vertex no local change? -/
def isLoaded (g : GraphTx S T) (v : VertexId) : Bool := !g.modified.contains v

/-- The added relations at a vertex. -/
def addedAt (g : GraphTx S T) (v : VertexId) : List Relation :=
  g.added.filter fun r => r.isIncident v

/-- Was the relation removed? -/
def isRemoved (g : GraphTx S T) (id : RelationId) : Bool := g.removed.contains id

/-! ## Partitioned vertices and labels -/

/-- Declares a vertex partitioned. -/
def withPartitioned (g : GraphTx S T) (v : VertexId) (representatives : List VertexId) :
    GraphTx S T :=
  { g with partitions := g.partitions.put v representatives }

/-- Declares which representatives are local. -/
def withLocalPartitions (g : GraphTx S T) (representatives : List VertexId) : GraphTx S T :=
  { g with localPartitions := some representatives }

/-- Sets the label of a vertex. -/
def withLabel (g : GraphTx S T) (v : VertexId) (label : String) : GraphTx S T :=
  { g with labels := g.labels.put v label }

/-- Is the vertex partitioned? -/
def isPartitioned (g : GraphTx S T) (v : VertexId) : Bool := g.partitions.contains v

/-- The representatives of a vertex, perhaps only the local ones. -/
def representatives (g : GraphTx S T) (v : VertexId) (restricted : Bool) : List VertexId :=
  match g.partitions.get? v with
  | none => [v]
  | some all =>
    match g.localPartitions, restricted with
    | some near, true => all.filter near.contains
    | _, _ => all

/-- The representative that holds the unique relations of a vertex. -/
def canonical (g : GraphTx S T) (v : VertexId) : VertexId :=
  ((g.partitions.get? v).bind List.head?).getD v

/-- The label of a vertex. -/
def label? (g : GraphTx S T) (v : VertexId) : Option String := g.labels.get? v

/-! ## Reading and writing -/

/-- A call of the store, as an operation with the factors that it draws. -/
def operation [Metered σ] (g : GraphTx S T) (call : String) (budgetMillis : Nat)
    (draw : Nat → Binary64) : Operation σ where
  name := g.storeName ++ "." ++ call
  budget := .ofMillis budgetMillis
  policy := .ofSettings g.settings.retry
  draw := draw
  interrupted := fun _ => false
  note := count Metrics.countRetry

/-- The relations in a slice of the row of a vertex. -/
def readSlice [Timed σ] [Metered σ] (b : Backend σ S T) (g : GraphTx S T) (v : VertexId)
    (slice : Slice) : Act σ (List Relation) := do
  let tx ← Act.ofOutcome g.openTx
  let draw ← Act.asks b.draw
  let entries ← (g.operation "get_slice" g.settings.retry.readWaitMillis draw).run
    (b.read g.store (Layout.rowKey v) slice tx)
  Act.update (count Metrics.countSlice)
  Act.ofOutcome (entries.mapM fun e => Relation.ofStoredBytes e.value)

/-- The mutations of rows that write a list of entries. -/
def mutateRows (rows : SortedMap Bytes Mutation) (entries : List (Bytes × Entry))
    (f : Mutation → Entry → Mutation) : SortedMap Bytes Mutation :=
  entries.foldl (fun rows e => rows.put e.1 (f ((rows.get? e.1).getD .empty) e.2)) rows

/-- All local changes as one batch: what is removed is deleted and what is added is put. -/
def batch (schema : Schema) (g : GraphTx S T) : Outcome Batch := do
  let rows ← g.removed.values.foldlM (fun rows r => do
    let entries ← Layout.entriesFor schema r
    return mutateRows rows entries fun m e => m.delete e.column) SortedMap.empty
  let rows ← g.added.foldlM (fun rows r => do
    let entries ← Layout.entriesFor schema r
    return mutateRows rows entries Mutation.add) rows
  if rows.isEmpty then return .empty
  return SortedMap.empty.put g.storeName (rows.mapValues Mutation.consolidate)

/-- A call of the layers below. -/
def below (act : Act σ α) : Act (GraphTx S T × σ) α := act.on (·.2) fun s p => (p.1, s)

/-- The transaction after its end. -/
def ended (g : GraphTx S T) : GraphTx S T := { g.forget with tx := none }

/-- Writes all local changes and commits. If that fails nothing is forgotten. -/
def commit [Timed σ] [Metered σ] (b : Backend σ S T) (schema : Schema) :
    Act (GraphTx S T × σ) Unit := do
  let g ← Act.asks Prod.fst
  let tx ← Act.ofOutcome g.openTx
  let batch ← Act.ofOutcome (g.batch schema)
  if !batch.isEmpty then
    let draw ← below (Act.asks b.draw)
    below ((g.operation "mutate" g.settings.retry.writeWaitMillis draw).run (b.mutateMany batch tx))
  below (b.commit tx)
  Act.update fun p => (g.ended, p.2)

/-- Discards all local changes and rolls back. The transaction has ended even if that fails. -/
def rollback (b : Backend σ S T) : Act (GraphTx S T × σ) Unit := do
  let g ← Act.asks Prod.fst
  let tx ← Act.ofOutcome g.openTx
  Act.update fun p => (g.ended, p.2)
  below (b.rollback tx)

end GraphTx

end RowGraph
