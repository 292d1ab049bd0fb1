import RowGraph.SortedMap
import RowGraph.Schema.RelationType

/-!
# Relations

An edge or a property, with properties of its own. A relation is seen from one of its vertices,
the base; the value of a key on it may depend on that.
-/

namespace RowGraph

/-- An edge or a property. -/
structure Relation where
  id : RelationId
  typeId : TypeId
  /-- The vertex an edge leaves, or the owner of a property. -/
  outVertex : VertexId
  /-- The vertex an edge enters. -/
  inVertex : Option VertexId
  /-- The value of a property. -/
  value : Option Value
  /-- The properties of the relation itself. -/
  properties : SortedMap TypeId Value
  deriving DecidableEq, Repr, Inhabited

namespace Relation

/-- An edge without properties. -/
def edge (id : RelationId) (typeId : TypeId) (outVertex inVertex : VertexId) : Relation :=
  ⟨id, typeId, outVertex, some inVertex, none, .empty⟩

/-- A property without properties. -/
def property (id : RelationId) (typeId : TypeId) (owner : VertexId) (value : Value) : Relation :=
  ⟨id, typeId, owner, none, some value, .empty⟩

/-- Is it an edge? -/
def isEdge (r : Relation) : Bool := r.inVertex.isSome

/-- Edge or property. -/
def category (r : Relation) : Category := if r.isEdge then .edge else .property

/-- The end that is not `base`; at a loop, `base` itself. -/
def otherVertex? (r : Relation) (base : VertexId) : Option VertexId :=
  r.inVertex.map fun v => if r.outVertex = base then v else r.outVertex

/-- Is `v` an end of the relation? -/
def isIncident (r : Relation) (v : VertexId) : Bool :=
  r.outVertex == v || r.inVertex == some v

/-- Is `base` at end `d`? -/
def sitsAt (r : Relation) (base : VertexId) : Direction → Bool
  | .out => r.outVertex == base
  | .into => r.inVertex == some base
  | .both => r.isIncident base

/-- The value of a key, seen from `base`: that of an implicit key, the value of the relation itself
for its own type, or that of a property. -/
def valueOf (r : Relation) (key : TypeId) (base : VertexId) : Option Value :=
  match ImplicitKey.ofTypeId? key with
  | some .id => some (.int r.id.val.toInt64)
  | some .label => some (.int (Int64.ofNat r.typeId.val.toNat))
  | some .adjacent => (r.otherVertex? base).map .vertex
  | none => if key = r.typeId then r.value else r.properties.get? key

end Relation

end RowGraph
