import RowGraph.Schema.RelationType
import RowGraph.Failure
import RowGraph.Word

/-!
# Schemas

A schema is the list of its types in the order of their definition, and the next free type number
in each of the two ranges. A new schema holds the implicit keys. Defining a type or an index checks
everything first, so a refused definition leaves the schema as it was.
-/

namespace RowGraph

/-- The declaration of a property key or an edge label. Sort keys are given by name. -/
structure TypeDefinition where
  name : String
  kind : RelationKind
  dataKind : Option ValueKind
  multiplicity : Multiplicity
  directionality : Direction
  sortKey : List String
  sortOrder : SortOrder
  status : Status
  /-- Is the type to belong to the system? -/
  system : Bool
  deriving DecidableEq, Repr

namespace TypeDefinition

/-- A property key with at most one value per vertex. -/
def propertyKey (name : String) (data : ValueKind) : TypeDefinition where
  name := name
  kind := .propertyKey
  dataKind := some data
  multiplicity := .manyToOne
  directionality := .out
  sortKey := []
  sortOrder := .asc
  status := .enabled
  system := false

/-- An edge label kept at both ends, without a limit on its edges. -/
def edgeLabel (name : String) : TypeDefinition where
  name := name
  kind := .edgeLabel
  dataKind := none
  multiplicity := .multi
  directionality := .both
  sortKey := []
  sortOrder := .asc
  status := .enabled
  system := false

end TypeDefinition

/-- The declaration of an index over the type named `base`. -/
structure IndexDefinition where
  base : String
  name : String
  sortKey : List String
  direction : Direction
  sortOrder : SortOrder
  status : Status
  deriving DecidableEq, Repr

/-- The types of a graph. -/
structure Schema where
  types : List RelationType
  /-- The next number of a user's type. -/
  nextUser : Nat
  /-- The next number of a system type. -/
  nextSystem : Nat
  deriving DecidableEq, Repr, Inhabited

namespace Schema

/-- The type of an implicit key. -/
def implicitType (k : ImplicitKey) : RelationType where
  id := k.typeId
  name := k.name
  kind := .propertyKey
  dataKind := some k.dataKind
  multiplicity := .manyToOne
  directionality := .out
  sortKey := []
  sortOrder := .asc
  status := .enabled
  implicit := true
  indexes := []
  indexOf := none

/-- The schema that holds the implicit keys only. -/
def initial : Schema where
  types := ImplicitKey.all.map implicitType
  nextUser := TypeId.systemBound
  nextSystem := 16

/-- The type with a name. -/
def named? (schema : Schema) (name : String) : Option RelationType :=
  schema.types.find? (fun t => t.name == name)

/-- The type with a number. -/
def type? (schema : Schema) (id : TypeId) : Option RelationType :=
  schema.types.find? (fun t => t.id == id)

/-- The property key that a sort key names. -/
def sortKeyType (schema : Schema) (name : String) : Outcome TypeId :=
  match schema.named? name with
  | none => .error (.invalidInput ("unknown sort key " ++ name))
  | some t =>
    if t.isPropertyKey && !t.implicit then .ok t.id
    else .error (.invalidInput ("sort key " ++ name ++ " must be a declared property key"))

/-- The property keys that a sort key names. -/
def sortKeyTypes (schema : Schema) (names : List String) : Outcome (List TypeId) :=
  names.mapM schema.sortKeyType

/-- A free type number, and the schema without it. -/
def allocate (schema : Schema) (system : Bool) : Outcome (TypeId × Schema) :=
  if system then
    if TypeId.systemBound ≤ schema.nextSystem then
      .error (.invalid "system type id space exhausted")
    else
      .ok (⟨UInt32.ofNat schema.nextSystem⟩, { schema with nextSystem := schema.nextSystem + 1 })
  else if Word.bound32 ≤ schema.nextUser + 1 then .error (.invalid "type id space exhausted")
  else .ok (⟨UInt32.ofNat schema.nextUser⟩, { schema with nextUser := schema.nextUser + 1 })

/-- The schema with one more type. -/
def append (schema : Schema) (t : RelationType) : Schema :=
  { schema with types := schema.types ++ [t] }

/-- The schema with the type of the same number replaced. -/
def replace (schema : Schema) (t : RelationType) : Schema :=
  { schema with types := schema.types.map (fun u => if u.id = t.id then t else u) }

/-- The name is taken. -/
def alreadyDefined (name : String) : Failure :=
  .invalidInput ("relation type " ++ name ++ " already defined")

/-- Defines a property key or an edge label. -/
def define (schema : Schema) (d : TypeDefinition) : Outcome (RelationType × Schema) := do
  if (schema.named? d.name).isSome then throw (alreadyDefined d.name)
  if d.kind = .propertyKey ∧ d.directionality ≠ .out then
    throw (.invalid "property keys are stored out only")
  let sortKey ← schema.sortKeyTypes d.sortKey
  let (id, rest) ← schema.allocate d.system
  let t : RelationType := {
    id := id
    name := d.name
    kind := d.kind
    dataKind := d.dataKind
    multiplicity := d.multiplicity
    directionality := d.directionality
    sortKey := sortKey
    sortOrder := d.sortOrder
    status := d.status
    implicit := false
    indexes := []
    indexOf := none }
  return (t, rest.append t)

/-- Defines an index and enters it with its base type. -/
def defineIndex (schema : Schema) (d : IndexDefinition) : Outcome (RelationType × Schema) := do
  let some base := schema.named? d.base | throw (.notFound "indexed relation type")
  if base.implicit || base.isIndex then
    throw (.invalidInput (d.base ++ " cannot be indexed"))
  if (schema.named? d.name).isSome then throw (alreadyDefined d.name)
  if !base.storesDirection d.direction || (base.isPropertyKey && d.direction != .out) then
    throw (.invalidInput
      ("index " ++ d.name ++ " direction " ++ d.direction.name ++ " incompatible with " ++ d.base))
  let sortKey ← schema.sortKeyTypes d.sortKey
  let (id, rest) ← schema.allocate base.isSystem
  let index : RelationType := {
    id := id
    name := d.name
    kind := base.kind
    dataKind := base.dataKind
    multiplicity := .multi
    directionality := d.direction
    sortKey := sortKey
    sortOrder := d.sortOrder
    status := d.status
    implicit := false
    indexes := []
    indexOf := some base.id }
  return (index, (rest.append index).replace { base with indexes := base.indexes ++ [id] })

/-- Sets the status of a type or an index. -/
def setStatus (schema : Schema) (name : String) (status : Status) : Outcome Schema :=
  match schema.named? name with
  | none => .error (.notFound "relation type")
  | some t => .ok (schema.replace { t with status := status })

/-- The indexes over a type. -/
def indexesOver (schema : Schema) (t : RelationType) : Outcome (List RelationType) :=
  t.indexes.mapM fun id =>
    match schema.type? id with
    | some index => .ok index
    | none => .error (.notFound "relation index")

end Schema

end RowGraph
