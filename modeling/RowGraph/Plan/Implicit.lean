import RowGraph.Plan.Query

/-!
# Implicit keys of vertices

A query for one implicit key and nothing else is answered without reading: the id of a vertex is a
whole number, its label a text that the transaction may know, and it has no adjacent vertex.
-/

namespace RowGraph

namespace Query

/-- The implicit key that a query asks for. -/
def implicitKey? (schema : Schema) (q : Query) (category : Category) : Option ImplicitKey :=
  match category, q.types, q.constraints with
  | .edge, _, _ => none
  | _, [name], [] =>
    match schema.named? name with
    | some t => if t.implicit then ImplicitKey.ofTypeId? t.id else none
    | none => none
  | _, _, _ => none

/-- The value of an implicit key of a vertex. -/
def implicitValue? (label? : Option String) (v : VertexId) : ImplicitKey → Option Value
  | .id => some (.int v.val.toInt64)
  | .label => label?.map .string
  | .adjacent => none

/-- The answer to a query for an implicit key. -/
def implicitAnswer (q : Query) (label? : Option String) (v : VertexId) (key : ImplicitKey) :
    List Relation :=
  if q.direction = .into ∨ q.limit = 0 then []
  else
    match implicitValue? label? v key with
    | some value => [.property ⟨0⟩ key.typeId v value]
    | none => []

end Query

end RowGraph
