import RowGraph.Value
import RowGraph.Terms

/-!
# Relation types

A relation type is a property key, an edge label, or an index over one of these. An index is a type
of its own that stores every relation of its base type a second time, in the order of its own sort
key. Three implicit keys stand for what every relation has anyway.
-/

namespace RowGraph

/-- What the relations of a type are. -/
inductive RelationKind where
  /-- Values of one vertex. -/
  | propertyKey
  /-- Connections of two vertices. -/
  | edgeLabel
  deriving DecidableEq, Repr, Inhabited

/-- The kind with an article. -/
def RelationKind.phrase : RelationKind → String
  | .propertyKey => "a property key"
  | .edgeLabel => "an edge label"

/-- The keys that every relation has. -/
inductive ImplicitKey where
  /-- The id of the relation. -/
  | id
  /-- The id of its type. -/
  | label
  /-- The vertex at the other end of an edge. -/
  | adjacent
  deriving DecidableEq, Repr

namespace ImplicitKey

/-- All implicit keys. -/
def all : List ImplicitKey := [id, label, adjacent]

/-- The reserved type of an implicit key. -/
def typeId : ImplicitKey → TypeId
  | id => ⟨1⟩
  | label => ⟨2⟩
  | adjacent => ⟨3⟩

/-- The reserved name of an implicit key. -/
def name : ImplicitKey → String
  | id => "~id"
  | label => "~label"
  | adjacent => "~adjacent"

/-- The kind of its values. -/
def dataKind : ImplicitKey → ValueKind
  | id => .int
  | label => .int
  | adjacent => .vertex

/-- The implicit key with a reserved type. -/
def ofTypeId? (t : TypeId) : Option ImplicitKey := all.find? (fun k => k.typeId == t)

end ImplicitKey

/-- A property key, an edge label or an index. -/
structure RelationType where
  id : TypeId
  name : String
  kind : RelationKind
  /-- The kind of the values of a property key. -/
  dataKind : Option ValueKind
  multiplicity : Multiplicity
  /-- Both for edges kept at either end, else the one end where they are kept. -/
  directionality : Direction
  /-- The property keys that order the relations of the type within a row. -/
  sortKey : List TypeId
  sortOrder : SortOrder
  status : Status
  /-- Is it one of the implicit keys? -/
  implicit : Bool
  /-- The indexes over this type, in the order of their definition. -/
  indexes : List TypeId
  /-- The type that this one is an index over. -/
  indexOf : Option TypeId
  deriving DecidableEq, Repr, Inhabited

namespace RelationType

/-- Is it a property key, or an index over one? -/
def isPropertyKey (t : RelationType) : Bool := t.kind == .propertyKey

/-- Is it an edge label, or an index over one? -/
def isEdgeLabel (t : RelationType) : Bool := t.kind == .edgeLabel

/-- Is exactly direction `d` declared? -/
def isDirected (t : RelationType) (d : Direction) : Bool := t.directionality == d

/-- Are relations of the type kept at end `d`? -/
def storesDirection (t : RelationType) (d : Direction) : Bool := t.directionality.covers d

/-- Is it an index? -/
def isIndex (t : RelationType) : Bool := t.indexOf.isSome

/-- Does it belong to the system? -/
def isSystem (t : RelationType) : Bool := t.id.isSystem

end RelationType

end RowGraph
