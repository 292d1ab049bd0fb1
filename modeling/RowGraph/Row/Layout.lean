import RowGraph.Constraint.Interval
import RowGraph.Relation.Stored
import RowGraph.Row.Slice
import RowGraph.Schema
import RowGraph.Value.Key

/-!
# The layout of rows

The row of a vertex holds one column for every relation of the vertex, end and layout: that of its
type and of each index over it. A column is made of

* a byte for what is visible, a byte for the kind, the type number and a byte for the end;
* the values of the sort key, in the sort order of the layout;
* the adjacent vertex, for edges that are not unique at this end;
* the value of the property, for properties whose values are distinct;
* the id of the relation, where nothing else tells relations apart.

The slices over all relations of a category, over a type at one end, and over leading sort-key
values followed by a range are ranges of such columns.
-/

namespace RowGraph

/-- What a slice demands of the sort key: exact values of the leading components, then perhaps a
range of the next one. -/
structure KeyRestriction where
  points : List Value
  range : Option (Bound × Bound)
  deriving DecidableEq, Repr, Inhabited

/-- No demand. -/
def KeyRestriction.none : KeyRestriction := ⟨[], .none⟩

namespace Layout

/-- The key of a vertex's row. -/
def rowKey (v : VertexId) : Bytes := Bytes.bigEndian 8 v.val.toNat

/-- The first byte of the columns of a layout: system types first, indexes last. -/
def visibilityByte (t : RelationType) : UInt8 :=
  if t.isIndex then 2 else if t.isSystem then 0 else 1

/-- The byte of a kind. -/
def kindByte : RelationKind → UInt8
  | .propertyKey => 0x10
  | .edgeLabel => 0x20

/-- What the columns of a layout start with. -/
def typeStem (t : RelationType) : Bytes :=
  [visibilityByte t, kindByte t.kind] ++ Bytes.bigEndian 4 t.id.val.toNat

/-- The byte of an end. -/
def directionByte? : Direction → Option UInt8
  | .out => some 0
  | .into => some 1
  | .both => none

/-- The sort order of a component of the extended sort key: what follows the sort key ascends. -/
def componentOrder (t : RelationType) (position : Nat) : SortOrder :=
  if position < t.sortKey.length then t.sortOrder else .asc

/-- The slice from a stem to the end of its extensions. -/
def stemSlice (stem : Bytes) : Outcome Slice := do
  let stop ← Key.successor stem
  return ⟨stem, stop, none⟩

/-- The slice over all relations of a category. -/
def categorySlice (category : Category) (system : Bool) : Outcome Slice :=
  stemSlice <| (if system then (0 : UInt8) else 1) :: match category with
    | .property => [kindByte .propertyKey]
    | .edge => [kindByte .edgeLabel]
    | .relation => []

/-- Values encoded one after another, the first as component `position`. -/
def encodeComponents (t : RelationType) (position : Nat) : List (Option Value) → Bytes
  | [] => []
  | v :: rest => Key.encode v (componentOrder t position) ++ encodeComponents t (position + 1) rest

/-- Where a range of one component starts, given its first bound in byte order. -/
def lowerColumn (stem : Bytes) (order : SortOrder) : Bound → Outcome Bytes
  | .unbounded => .ok stem
  | .included v => .ok (stem ++ Key.encode (some v) order)
  | .excluded v => Key.successor (stem ++ Key.encode (some v) order)

/-- Where a range of one component stops, given its last bound in byte order. -/
def upperColumn (stem : Bytes) (order : SortOrder) : Bound → Outcome Bytes
  | .unbounded => Key.successor stem
  | .included v => Key.successor (stem ++ Key.encode (some v) order)
  | .excluded v => .ok (stem ++ Key.encode (some v) order)

/-- The slice over the columns of a layout at an end that meet a restriction. Both ends at once can
only be read without a restriction. -/
def typeSlice (t : RelationType) (d : Direction) (restriction : KeyRestriction) :
    Outcome Slice := do
  match directionByte? d with
  | none =>
    if !restriction.points.isEmpty || restriction.range.isSome then
      throw (.invalid "sort-key restrictions need a single direction")
    stemSlice (typeStem t)
  | some end? =>
    let stem := typeStem t ++ [end?] ++ encodeComponents t 0 (restriction.points.map some)
    match restriction.range with
    | none => stemSlice stem
    | some (lower, upper) =>
      let order := componentOrder t restriction.points.length
      let (first, last) := match order with
        | .asc => (lower, upper)
        | .desc => (upper, lower)
      let start ← lowerColumn stem order first
      let stop ← upperColumn stem order last
      return ⟨start, stop, none⟩

/-- The column of a relation of type `base` in one of its layouts, at end `d` where `v` sits. -/
def column (layout base : RelationType) (r : Relation) (d : Direction) (v : VertexId) :
    Outcome Bytes := do
  let some end? := directionByte? d | throw (.invalid "column needs a single direction")
  let sortValues := layout.sortKey.map fun key => r.valueOf key v
  let adjacent ←
    if base.isEdgeLabel && !layout.multiplicity.isUnique d then
      match r.otherVertex? v with
      | some w => pure (Key.encode (some (.vertex w)) .asc)
      | none => throw (.invalid "edge without in-vertex")
    else pure []
  let own :=
    if base.isPropertyKey && layout.multiplicity == .simple then Key.encode r.value .asc else []
  let id :=
    if layout.multiplicity.isConstrained then []
    else Key.encode (r.valueOf ImplicitKey.id.typeId v) .asc
  return typeStem layout ++ [end?] ++ encodeComponents layout 0 sortValues ++ adjacent ++ own ++ id

/-- The ends of a relation with the vertices that sit there. -/
def ends (r : Relation) : List (Direction × VertexId) :=
  (.out, r.outVertex) :: match r.inVertex with
    | some v => [(.into, v)]
    | none => []

/-- The layouts that keep a relation of a type: the type itself and its indexes that are not
disabled. -/
def keptLayouts (schema : Schema) (base : RelationType) : Outcome (List RelationType) := do
  let indexes ← schema.indexesOver base
  return base :: indexes.filter (fun t => t.status != .disabled)

/-- The entries that keep a relation, each with the key of its row. -/
def entriesFor (schema : Schema) (r : Relation) : Outcome (List (Bytes × Entry)) := do
  let some base := schema.type? r.typeId | throw (.notFound "relation type")
  let layouts ← keptLayouts schema base
  let places := (ends r).flatMap fun (d, v) =>
    (layouts.filter (fun t => t.storesDirection d)).map fun t => (t, d, v)
  places.mapM fun (t, d, v) => do
    let c ← column t base r d v
    return (rowKey v, ⟨c, r.storedBytes⟩)

end Layout

end RowGraph
