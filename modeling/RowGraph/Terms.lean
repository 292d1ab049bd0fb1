/-!
# Terms of a schema

The small vocabularies that schemas, queries and layouts share.
-/

namespace RowGraph

/-- The end of a relation at which a vertex sits, or either end. -/
inductive Direction where
  | out
  | into
  | both
  deriving DecidableEq, Repr, Inhabited

namespace Direction

/-- The two ends, in the order in which both are served. -/
def ends : List Direction := [out, into]

/-- Does `d` allow `e`? -/
def covers (d e : Direction) : Bool := d == both || d == e

/-- The other end. -/
def opposite : Direction → Direction
  | out => into
  | into => out
  | both => both

/-- The name of a direction. -/
def name : Direction → String
  | out => "out"
  | into => "in"
  | both => "both"

end Direction

/-- How many relations of a type a vertex may have in a direction. -/
inductive Multiplicity where
  /-- Any number. -/
  | multi
  /-- One per pair of vertices, or per value of a property. -/
  | simple
  /-- One going out of a vertex. -/
  | manyToOne
  /-- One coming into a vertex. -/
  | oneToMany
  /-- One in either direction. -/
  | oneToOne
  deriving DecidableEq, Repr, Inhabited

namespace Multiplicity

/-- Has a vertex at most one relation in direction `d`? -/
def isUnique (m : Multiplicity) (d : Direction) : Bool :=
  match d with
  | .into => m == oneToMany || m == oneToOne
  | .out => m == manyToOne || m == oneToOne
  | .both => m == oneToOne

/-- Is there any limit? -/
def isConstrained (m : Multiplicity) : Bool := m != multi

end Multiplicity

/-- How many values of a property a vertex may have. -/
inductive Cardinality where
  | single
  | list
  | set
  deriving DecidableEq, Repr

/-- The multiplicity of a property with a given cardinality. -/
def Cardinality.multiplicity : Cardinality → Multiplicity
  | .single => .manyToOne
  | .list => .multi
  | .set => .simple

/-- The stage of life of a type. -/
inductive Status where
  /-- Created. -/
  | installed
  /-- Known everywhere, being built. -/
  | registered
  /-- Usable. -/
  | enabled
  /-- No longer kept up. -/
  | disabled
  deriving DecidableEq, Repr, Inhabited

/-- What a query returns. -/
inductive Category where
  | edge
  | property
  | relation
  deriving DecidableEq, Repr

/-- The plural of a category. -/
def Category.plural : Category → String
  | .edge => "edges"
  | .property => "properties"
  | .relation => "relations"

/-- Ascending or descending. -/
inductive SortOrder where
  | asc
  | desc
  deriving DecidableEq, Repr, Inhabited

/-- A comparison in this order. -/
def SortOrder.apply : SortOrder → Ordering → Ordering
  | .asc, o => o
  | .desc, o => o.swap

end RowGraph
