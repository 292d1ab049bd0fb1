import RowGraph.Answer.Lazy
import RowGraph.Schema.Steps
import RowGraph.Session.Rig

/-!
# Steps of a session

What can be done in a session, where stores, transactions and graph transactions have names, and
what each step answers.
-/

namespace RowGraph

namespace Session

/-- What a query is asked for. -/
inductive Run where
  | relations (category : Category)
  | vertices
  | vertexIds
  | count
  | compile (category : Category)
  deriving DecidableEq, Repr

/-- The graph transaction to open, and what it is told. -/
structure Opening where
  store : String
  change : Settings.Change
  partitioned : List (VertexId × List VertexId)
  localPartitions : Option (List VertexId)
  labels : List (VertexId × String)

/-- A row to be mutated. -/
structure RowMutation where
  store : String
  key : Bytes
  mutation : Mutation

/-- The batch of a list of rows. Of several mutations of one row only the last is kept. -/
def RowMutation.batch (rows : List RowMutation) : Batch :=
  rows.foldl (fun b r => b.set r.store r.key r.mutation) .empty

/-- A step that needs no other step. The names of graph transactions come first. -/
inductive Basic where
  | plan (call : CallName) (outcomes : List (Option Failure))
  | log
  | advance (d : Nanos)
  | sleeps
  | metrics
  | held (locker : String)
  | schema (step : Schema.Step)
  | rows (store : String) (keys : List Bytes)
  | backend
  | close
  | openStore (name : String)
  | beginTx (name : String) (options : TxOptions) (foreign : Bool)
  | showTx (name : String) (stamp : Option Nat)
  | lock (store tx : String) (target : LockTarget) (expected : Option Bytes)
  | read (store tx : String) (key : Bytes) (slice : Slice)
  | mutate (store tx : String) (key : Bytes) (m : Mutation)
  | mutateMany (tx : String) (rows : List RowMutation)
  | prepare (tx : String)
  | commitTx (tx : String)
  | rollbackTx (tx : String)
  | openGraph (name : String) (opening : Opening)
  | add (graph : String) (relations : List Relation)
  | remove (graph : String) (relations : List Relation)
  | commit (graph : String)
  | rollback (graph : String)
  | txId (graph : String)
  | state (graph : String) (vertices : List VertexId) (removed : List RelationId)
  | readSlice (graph : String) (v : VertexId) (slice : Slice)
  /-- Asks a query and pulls its answer. With `items`, a failure while pulling is an item. -/
  | ask (graph : String) (calls : List QueryCall) (run : Run) (v : VertexId) (items : Bool)

/-- A step. -/
inductive Step where
  | basic (step : Basic)
  /-- Asks a query, carries out other steps and then pulls the answer. -/
  | askAround (graph : String) (calls : List QueryCall) (run : Run) (v : VertexId)
    (meanwhile : List Step)

/-- A result of a query. -/
inductive Found where
  | relation (r : Relation)
  | vertex (v : VertexId)
  deriving DecidableEq, Repr

/-- How a lazy answer was pulled. -/
structure Pulled where
  /-- The text of the answer before the first pull. -/
  created : String
  slicesBefore : Nat
  first : Option (Outcome Found)
  /-- The text of the answer after the first pull. -/
  pulled : String
  rest : List Found

/-- The answer to a query. -/
inductive QueryAnswer where
  /-- All results, and the failure that ended them if it counts as one. -/
  | results (found : List Found) (failure : Option Failure)
  | vertexIds (list : VertexList)
  | count (n : Nat)
  | compiled (q : CompiledQuery)
  | pulled (p : Pulled)

/-- What a graph transaction shows of a vertex. -/
structure VertexView where
  loaded : Bool
  partitioned : Bool
  representatives : List VertexId
  localRepresentatives : List VertexId
  canonical : VertexId
  label : Option String
  added : List Relation

/-- The answer to a step. -/
inductive Answer where
  | done
  | lines (log : List String)
  | spans (spans : List Nanos)
  | metrics (m : Metrics)
  | number (n : Nat)
  | flag (b : Bool)
  | schema (r : Schema.Report)
  /-- The number of columns of each row and the entries that were looked at. -/
  | rows (rows : List (Nat × List Entry))
  | backend (name : String) (features : Features) (innerLocking : Bool)
  | opened (name : String) (same : Option Bool)
  | tx (tx : TxView) (joint : Option JointView)
  | entries (entries : List Entry)
  | state (modified : Bool) (vertices : List VertexView) (removed : List Bool)
  | relations (relations : List Relation)
  /-- The answer to a query and how many slices were read for it. -/
  | query (answer : QueryAnswer) (slices : Nat)

end Session

end RowGraph
