import RowGraph.Answer.Lazy
import RowGraph.Storage.Local

/-!
# Compiling alone

Compiling a query in a transaction of its own, over a store in memory that holds nothing.
-/

namespace RowGraph

namespace Solo

/-- Compiles a query for relations of a category after some relations were added. -/
def compileIn (schema : Schema) (settings : Settings) (added : List Relation)
    (calls : List QueryCall) (category : Category) : Act Local CompiledQuery := do
  let g ← GraphTx.start (Local.backend Memory.defaultFeatures) "edgestore" settings
  let g := added.foldl GraphTx.add g
  g.compile schema (g.query schema calls) category

/-- The compiled query, and what was counted. -/
def compile (schema : Schema) (settings : Settings) (added : List Relation)
    (calls : List QueryCall) (category : Category) : Outcome CompiledQuery × Metrics :=
  let (compiled, s) := (compileIn schema settings added calls category).exec .new
  (compiled, s.metrics)

end Solo

end RowGraph
