import RowGraph.Answer.FanOut
import RowGraph.Plan.Compile
import RowGraph.Plan.Fingerprint
import RowGraph.Plan.Implicit

/-!
# Asking queries

A query is compiled when it is asked, but its answer is lazy: nothing is read before the first item
is pulled. A failure while reading is the last item. An implicit key is computed at once.
-/

namespace RowGraph

/-- An answer of which nothing was pulled yet. -/
inductive LazyAnswer (α : Type) where
  /-- Nothing to read. -/
  | nothing
  /-- Computed when the query was asked. -/
  | computed (items : List α)
  /-- To be read from the vertex. -/
  | pending (e : Execution) (v : VertexId)

namespace LazyAnswer

/-- The text of an answer for a log: was it started, and how many items wait to be pulled? -/
def debugText (started : Bool) (buffered : Nat) : String :=
  "LazyResults \x7b started: " ++ (if started then "true" else "false") ++ ", buffered: " ++
    toString buffered ++ " \x7d"

/-- Is there nothing left to start? -/
def isStarted {α : Type} : LazyAnswer α → Bool
  | nothing => true
  | _ => false

/-- All items, given how a pending answer is read. -/
def pull {α σ : Type} (read : Execution → VertexId → Act σ (List α)) : LazyAnswer α → Act σ (List α)
  | nothing => return []
  | computed items => return items
  | pending e v => read e v

end LazyAnswer

namespace GraphTx

variable {σ S T : Type}

/-- What queries of the transaction are compiled with. -/
def setting (g : GraphTx S T) (schema : Schema) : Query.Setting :=
  ⟨schema, g.settings.query.hardMaxLimit, g.hasModifications⟩

/-- The query that a list of calls builds. -/
def query (g : GraphTx S T) (schema : Schema) (calls : List QueryCall) : Query :=
  .build schema g.settings.query calls

/-- Compiles a query and counts it. -/
def compile [Metered σ] (g : GraphTx S T) (schema : Schema) (q : Query) (category : Category) :
    Act σ CompiledQuery := do
  let compiled ← Act.ofOutcome (q.compile (g.setting schema) category)
  Act.update (count fun m => m.countQuery compiled.reads.length)
  return compiled

/-- Compiles a query that is to be run. -/
def compileToRun [Metered σ] (g : GraphTx S T) (schema : Schema) (q : Query)
    (category : Category) : Act σ CompiledQuery := do
  let compiled ← g.compile schema q category
  Act.ofOutcome (q.checkRunnable compiled)
  return compiled

/-- How a compiled query is run. -/
def execution (schema : Schema) (q : Query) (compiled : CompiledQuery) : Execution where
  query := compiled
  adjacent := q.adjacent
  onlyLoaded := q.onlyLoaded
  onlyGivenVertex := q.onlyGivenVertex
  restrictToPartitions := q.restrictToPartitions
  uniqueTypes := q.namesUniqueTypes schema

/-- Asks for the relations of a vertex in a category. -/
def askRelations [Metered σ] (g : GraphTx S T) (schema : Schema) (q : Query)
    (category : Category) (v : VertexId) : Act σ (LazyAnswer Relation) := do
  match q.implicitKey? schema category with
  | some key => return .computed (q.implicitAnswer (g.label? v) v key)
  | none =>
    let compiled ← g.compileToRun schema q category
    if compiled.isEmpty then return .nothing
    return .pending (execution schema q compiled) v

/-- Asks for the vertices adjacent to a vertex. -/
def askVertices [Metered σ] (g : GraphTx S T) (schema : Schema) (q : Query) (v : VertexId) :
    Act σ (LazyAnswer VertexId) := do
  let compiled ← g.compileToRun schema q .edge
  if compiled.isEmpty then return .nothing
  return .pending (execution schema q compiled) v

/-- The vertices adjacent to a vertex, read at once. -/
def vertexIds [Timed σ] [Metered σ] (b : Backend σ S T) (g : GraphTx S T) (schema : Schema)
    (q : Query) (v : VertexId) : Act σ VertexList := do
  let compiled ← g.compileToRun schema q .edge
  if compiled.isEmpty then return .empty
  (execution schema q compiled).vertexIds (g.view b) v

/-- The relations of a lazy answer, as the transaction is now. -/
def pullRelations [Timed σ] [Metered σ] (b : Backend σ S T) (g : GraphTx S T)
    (a : LazyAnswer Relation) : Act σ (List Relation) :=
  a.pull fun e v => e.relations (g.view b) v

/-- The vertices of a lazy answer, as the transaction is now. -/
def pullVertices [Timed σ] [Metered σ] (b : Backend σ S T) (g : GraphTx S T)
    (a : LazyAnswer VertexId) : Act σ (List VertexId) :=
  a.pull fun e v => e.vertices (g.view b) v

end GraphTx

end RowGraph
