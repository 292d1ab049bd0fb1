import RowGraph.Relation
import RowGraph.Failure
import RowGraph.Json.Lexeme
import RowGraph.Decimal.Notation
import RowGraph.Word

/-!
# Stored relations

A relation is stored as a JSON object. A value is an object whose one member names its kind, and
the properties are pairs in the order of their keys. A floating-point number that is infinite or
not a number is stored as `null`, which does not read back.
-/

namespace RowGraph

namespace Value

/-- The stored form of a floating-point number. -/
def floatJson (x : Binary64) : Json :=
  if x.isFinite then .number (Json.asciiBytes (NumberStyle.stored.text x)) else .null

/-- The stored form of what a value holds. -/
def contentJson : Value → Json
  | bool b => .bool b
  | int i => .ofInt i.toInt
  | float x => floatJson x
  | string s => .ofText s
  | vertex v => .ofNat v.val.toNat

/-- The stored form of a value. -/
def toJson (v : Value) : Json := .object [(Json.asciiBytes v.kind.name, v.contentJson)]

/-- Reads what a value of a kind holds. -/
def ofContentJson? (kind : String) (j : Json) : Option Value :=
  match kind with
  | "Bool" => match j with
    | .bool b => some (.bool b)
    | _ => none
  | "Int" => j.int64?.map .int
  | "Float" => j.float?.map .float
  | "String" => j.text?.map .string
  | "Vertex" => (j.nat? Word.bound64).map fun n => .vertex ⟨UInt64.ofNat n⟩
  | _ => none

/-- Reads the stored form of a value. -/
def ofJson? : Json → Option Value
  | .object [(name, j)] => (Json.lexemeText? name).bind fun kind => ofContentJson? kind j
  | _ => none

end Value

namespace Relation

/-- What may be missing is `null`. -/
def optionalJson {α : Type} (form : α → Json) : Option α → Json
  | some a => form a
  | none => .null

/-- Reads what may be missing. -/
def ofOptionalJson? {α : Type} (read : Json → Option α) : Json → Option (Option α)
  | .null => some none
  | j => (read j).map some

/-- A property and its key. -/
def propertyJson (p : TypeId × Value) : Json := .array [.ofNat p.1.val.toNat, p.2.toJson]

/-- The stored form of a relation. -/
def toJson (r : Relation) : Json :=
  .object [
    (Json.asciiBytes "id", .ofNat r.id.val.toNat),
    (Json.asciiBytes "type_id", .ofNat r.typeId.val.toNat),
    (Json.asciiBytes "out_vertex", .ofNat r.outVertex.val.toNat),
    (Json.asciiBytes "in_vertex", optionalJson (fun v => .ofNat v.val.toNat) r.inVertex),
    (Json.asciiBytes "value", optionalJson Value.toJson r.value),
    (Json.asciiBytes "properties", .array (r.properties.toList.map propertyJson))]

/-- The stored bytes of a relation. -/
def storedBytes (r : Relation) : Bytes := r.toJson.render

/-- Reads a number of 64 bits. -/
def word? (j : Json) : Option UInt64 := (j.nat? Word.bound64).map UInt64.ofNat

/-- Reads a type. -/
def typeId? (j : Json) : Option TypeId := (j.nat? Word.bound32).map fun n => ⟨UInt32.ofNat n⟩

/-- Reads a property and its key. -/
def property? : Json → Option (TypeId × Value)
  | .array [key, value] => do
    let key ← typeId? key
    let value ← Value.ofJson? value
    return (key, value)
  | _ => none

/-- Reads the properties; a later one of the same key replaces an earlier one. -/
def properties? : Json → Option (SortedMap TypeId Value)
  | .array items => (items.mapM property?).map SortedMap.ofList
  | _ => none

/-- Reads a relation from its six parts. -/
def ofParts? (id typeId outVertex inVertex value properties : Json) : Option Relation := do
  let id ← word? id
  let typeId ← typeId? typeId
  let outVertex ← word? outVertex
  let inVertex ← ofOptionalJson? word? inVertex
  let value ← ofOptionalJson? Value.ofJson? value
  let properties ← properties? properties
  return ⟨⟨id⟩, typeId, ⟨outVertex⟩, inVertex.map VertexId.mk, value, properties⟩

/-- The names of the parts. -/
def partNames : List String := ["id", "type_id", "out_vertex", "in_vertex", "value", "properties"]

/-- The members that are parts, by name; none if a name is not a text or a part is repeated. -/
def parts? : List (Bytes × Json) → Option (List (String × Json))
  | [] => some []
  | (name, j) :: rest => do
    let name ← Json.lexemeText? name
    let others ← parts? rest
    if !partNames.contains name then return others
    else if (others.lookup name).isSome then none
    else return (name, j) :: others

/-- Reads a relation: an object, in which other members than the parts are ignored and the parts
that may be `null` may be missing, or an array of exactly the parts. -/
def ofJson? : Json → Option Relation
  | .object members => do
    let parts ← parts? members
    ofParts? (← parts.lookup "id") (← parts.lookup "type_id") (← parts.lookup "out_vertex")
      ((parts.lookup "in_vertex").getD .null) ((parts.lookup "value").getD .null)
      (← parts.lookup "properties")
  | .array [id, typeId, outVertex, inVertex, value, properties] =>
    ofParts? id typeId outVertex inVertex value properties
  | _ => none

/-- Reads the stored bytes of a relation. -/
def ofStoredBytes (s : Bytes) : Outcome Relation :=
  match (Json.parse? s).bind ofJson? with
  | some r => .ok r
  | none => .error (.serialization "not a stored relation")

end Relation

end RowGraph
