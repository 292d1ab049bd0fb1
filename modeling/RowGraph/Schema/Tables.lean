import RowGraph.Schema.Steps
import RowGraph.SortedMap

/-!
# Schemas as two tables

A schema that is written to while it is read keeps every type twice: under its name and under its number.
A type is never altered.  A changed type is entered anew, over the one before, in both tables.  The calls
are carried out one action after another, so that an action which fails leaves what was done before it.
-/

namespace RowGraph

/-- The type that a definition declares, with its number and the numbers of its sort key. -/
def TypeDefinition.toType (d : TypeDefinition) (id : TypeId) (sortKey : List TypeId) : RelationType where
  id := id
  name := d.name
  kind := d.kind
  dataKind := d.dataKind
  multiplicity := d.multiplicity
  directionality := d.directionality
  sortKey := sortKey
  sortOrder := d.sortOrder
  status := d.status
  implicit := false
  indexes := []
  indexOf := none

/-- The index that a definition declares over a type. -/
def IndexDefinition.toType (d : IndexDefinition) (base : RelationType) (id : TypeId)
    (sortKey : List TypeId) : RelationType where
  id := id
  name := d.name
  kind := base.kind
  dataKind := base.dataKind
  multiplicity := .multi
  directionality := d.direction
  sortKey := sortKey
  sortOrder := d.sortOrder
  status := d.status
  implicit := false
  indexes := []
  indexOf := some base.id

namespace Schema

/-- The types of a schema by name and by number, and the next free number in each range. -/
structure Tables where
  byName : SortedMap String RelationType
  byId : SortedMap TypeId RelationType
  nextUser : Nat
  nextSystem : Nat

namespace Tables

/-- Enters a type in both tables. -/
def insert (T : Tables) (t : RelationType) : Tables :=
  { T with byName := T.byName.put t.name t, byId := T.byId.put t.id t }

/-- The tables of the implicit keys. -/
def initial : Tables :=
  (ImplicitKey.all.map implicitType).foldl insert ⟨.empty, .empty, TypeId.systemBound, 16⟩

/-- The next number of a range. -/
def next (T : Tables) (system : Bool) : Nat := if system then T.nextSystem else T.nextUser

/-- The tables with another next number of a range. -/
def withNext (T : Tables) (system : Bool) (n : Nat) : Tables :=
  if system then { T with nextSystem := n } else { T with nextUser := n }

/-- Takes the next number of a range. -/
def allocate (system : Bool) : Act Tables TypeId := do
  let n ← Act.asks (next · system)
  if system ∧ TypeId.systemBound ≤ n then throw (.invalid "system type id space exhausted")
  if Word.bound32 ≤ n + 1 then throw (.invalid "type id space exhausted")
  Act.update (withNext · system (n + 1))
  return ⟨UInt32.ofNat n⟩

/-- The property key that a sort key names. -/
def sortKeyType (T : Tables) (name : String) : Outcome TypeId :=
  match T.byName.get? name with
  | none => .error (.invalidInput ("unknown sort key " ++ name))
  | some t =>
    if !t.isPropertyKey || t.implicit then
      .error (.invalidInput ("sort key " ++ name ++ " must be a declared property key"))
    else .ok t.id

/-- The property keys that a sort key names. -/
def sortKeyTypes (names : List String) : Act Tables (List TypeId) := do
  let T ← Act.asks id
  Act.ofOutcome (names.mapM T.sortKeyType)

/-- Defines a property key or an edge label. -/
def define (d : TypeDefinition) : Act Tables RelationType := do
  let T ← Act.asks id
  if T.byName.contains d.name then throw (alreadyDefined d.name)
  if d.kind = .propertyKey ∧ d.directionality ≠ .out then
    throw (.invalid "property keys are stored out only")
  let sortKey ← sortKeyTypes d.sortKey
  let id ← allocate d.system
  let t := d.toType id sortKey
  Act.update (insert · t)
  return t

/-- Defines an index, and enters its base type anew with the index in its list. -/
def defineIndex (d : IndexDefinition) : Act Tables RelationType := do
  let T ← Act.asks id
  let some base := T.byName.get? d.base | throw (.notFound "indexed relation type")
  if base.implicit || base.isIndex then
    throw (.invalidInput (d.base ++ " cannot be indexed"))
  if T.byName.contains d.name then throw (alreadyDefined d.name)
  if !base.storesDirection d.direction || (base.isPropertyKey && d.direction != .out) then
    throw (.invalidInput
      ("index " ++ d.name ++ " direction " ++ d.direction.name ++ " incompatible with " ++ d.base))
  let sortKey ← sortKeyTypes d.sortKey
  let id ← allocate base.isSystem
  let index := d.toType base id sortKey
  Act.update (insert · index)
  Act.update (insert · { base with indexes := base.indexes ++ [id] })
  return index

/-- Sets the status of a type or an index. -/
def setStatus (name : String) (status : Status) : Act Tables Unit := do
  let T ← Act.asks id
  let some t := T.byName.get? name | throw (.notFound "relation type")
  Act.update (insert · { t with status := status })

/-- A call that writes to a schema. -/
inductive Call where
  | define (d : TypeDefinition)
  | defineIndex (d : IndexDefinition)
  | setStatus (name : String) (status : Status)

/-- Carries a call out. -/
def perform : Call → Act Tables Report
  | .define d => do return .found (some (← define d))
  | .defineIndex d => do return .found (some (← defineIndex d))
  | .setStatus name status => do
    setStatus name status
    return .done

/-- The same call as a step of building a schema. -/
def Call.step : Call → Step
  | .define d => .define d
  | .defineIndex d => .index d
  | .setStatus name status => .status name status

/-- The tables after calls, one after another, whether they failed or not. -/
def after (calls : List Call) : Tables :=
  calls.foldl (fun T call => ((perform call).exec T).2) initial

end Tables

/-- The schema after steps, one after another, whether they failed or not. -/
def after (steps : List Step) : Schema :=
  steps.foldl (fun schema s => ((step s).exec schema).2) initial

end Schema

end RowGraph
