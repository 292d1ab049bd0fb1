import RowGraph.Constraint.Condition
import RowGraph.Schema
import RowGraph.Value.Text

/-!
# Constraints in normal form

A user constrains keys by name. With a schema the constraints become a conjunction of simple tests
and of disjunctions of equalities: an exclusion becomes inequalities, a membership a disjunction.
Values are fitted to the kind that the key declares. A key that the schema does not know is absent
from every relation, so a constraint on it either always holds or never does.
-/

namespace RowGraph

/-- What a key must satisfy. -/
inductive KeyTest where
  | compare (comparison : Comparison) (value : Option Value)
  | oneOf (values : List Value)
  | noneOf (values : List Value)
  deriving DecidableEq, Repr

/-- A test of the key with a name. -/
structure Constraint where
  key : String
  test : KeyTest
  deriving DecidableEq, Repr

namespace Constraint

/-- Does the test hold for a key that no relation has? -/
def holdsOfUnknown : KeyTest → Bool
  | .compare .eq none => true
  | .compare .ne (some _) => true
  | .noneOf _ => true
  | _ => false

/-- The kind of values that a key is compared with. An edge label stands for the vertex it leads to,
which needs edges kept at one end only. -/
def expectedKind (t : RelationType) : Outcome (Option ValueKind) :=
  if t.isEdgeLabel then
    if t.isDirected .out then .ok (some .vertex)
    else .error (.invalidInput
      ("edge label " ++ t.name ++ " must be unidirected to be used as a constraint"))
  else .ok t.dataKind

/-- A value as the kind that is expected: whole numbers become floating-point ones where these are
expected, any other mixture is refused. -/
def coerce (name : String) (expected : Option ValueKind) (v : Value) : Outcome Value :=
  match expected with
  | none => .ok v
  | some kind =>
    if v.kind = kind then .ok v
    else match kind, v with
      | .float, .int i => .ok (.float (.ofInt i.toInt))
      | kind, v => .error (.invalidInput
          ("value " ++ v.text ++ " does not match data type " ++ kind.name ++ " of " ++ name))

/-- The conditions that say that a key of a known type passes a test; none if nothing can. -/
def conditionsOf (t : RelationType) (expected : Option ValueKind) :
    KeyTest → Outcome (Option (List Condition))
  | .compare comparison none => .ok (some [.predicate t.id comparison none])
  | .compare comparison (some v) => do
    let v ← coerce t.name expected v
    return some [.predicate t.id comparison (some v)]
  | .noneOf values => do
    let values ← values.mapM (coerce t.name expected)
    return some (values.map fun v => .predicate t.id .ne (some v))
  | .oneOf [] => .ok none
  | .oneOf [v] => do
    let v ← coerce t.name expected v
    return some [.predicate t.id .eq (some v)]
  | .oneOf values => do
    let values ← values.mapM (coerce t.name expected)
    return some [.or (values.eraseDups.map fun v => .predicate t.id .eq (some v))]

/-- Adds the conditions that are not there yet. -/
def addNew (conditions new : List Condition) : List Condition :=
  new.foldl (fun cs c => if cs.contains c then cs else cs ++ [c]) conditions

/-- The conditions of all constraints after those already there; none if no relation can satisfy
them. -/
def normalizeFrom (schema : Schema) (conditions : List Condition) :
    List Constraint → Outcome (Option (List Condition))
  | [] => .ok (some conditions)
  | c :: rest =>
    match schema.named? c.key with
    | none => if holdsOfUnknown c.test then normalizeFrom schema conditions rest else .ok none
    | some t => do
      let expected ← expectedKind t
      match ← conditionsOf t expected c.test with
      | none => return none
      | some new => normalizeFrom schema (addNew conditions new) rest

/-- The constraints as the children of a conjunction, each once; none if no relation can satisfy
them. -/
def normalize (schema : Schema) (constraints : List Constraint) :
    Outcome (Option (List Condition)) :=
  normalizeFrom schema [] constraints

end Constraint

end RowGraph
