import RowGraph.Schema

/-!
# Building schemas step by step

A schema is built by definitions, status changes and look-ups, one after another. A step that fails
leaves the schema as it was, but for a row of definitions, which keeps those before the failure.
-/

namespace RowGraph

namespace Schema

/-- A step of building a schema. -/
inductive Step where
  | define (d : TypeDefinition)
  /-- Defines types named after the definition, followed by 0, 1 and so on. -/
  | defineMany (howMany : Nat) (d : TypeDefinition)
  | index (d : IndexDefinition)
  | status (name : String) (status : Status)
  /-- Looks a type up by name. -/
  | get (name : String)
  /-- Looks a type up by number. -/
  | getById (id : TypeId)
  deriving DecidableEq, Repr

/-- What a step reports. -/
inductive Report where
  | done
  | found (t : Option RelationType)
  deriving DecidableEq, Repr

/-- Defines `remaining` types named after a definition, the first of them followed by `number`. -/
def defineNumbered (d : TypeDefinition) :
    (remaining number : Nat) → Act Schema Report
  | 0, _ => return .found none
  | remaining + 1, number => Act.of fun schema =>
    match schema.define { d with name := d.name ++ toString number } with
    | .error f => (.error f, schema)
    | .ok (t, schema) =>
      if remaining = 0 then (.ok (.found (some t)), schema)
      else defineNumbered d remaining (number + 1) schema

/-- The type that a definition made, which the schema then holds. -/
def keep (made : Schema → Outcome (RelationType × Schema)) : Act Schema Report :=
  Act.of fun schema =>
  match made schema with
  | .error f => (.error f, schema)
  | .ok (t, schema) => (.ok (.found (some t)), schema)

/-- Carries a step out. -/
def step : Step → Act Schema Report
  | .define d => keep fun schema => schema.define d
  | .defineMany howMany d => defineNumbered d howMany 0
  | .index d => keep fun schema => schema.defineIndex d
  | .status name status => Act.of fun schema =>
    match schema.setStatus name status with
    | .error f => (.error f, schema)
    | .ok schema => (.ok .done, schema)
  | .get name => do return .found (← Act.asks fun schema => schema.named? name)
  | .getById id => do return .found (← Act.asks fun schema => schema.type? id)

/-- The schema that a list of steps builds. -/
def ofSteps (steps : List Step) : Outcome Schema :=
  match (steps.forM fun s => do let _ ← step s).exec initial with
  | (.ok (), schema) => .ok schema
  | (.error f, _) => .error f

/-- The reports of all steps; the sequence goes on after a failure. -/
def reports : List Step → Schema → List (Outcome Report)
  | [], _ => []
  | s :: rest, schema =>
    let (report, schema) := (step s).exec schema
    report :: reports rest schema

end Schema

end RowGraph
