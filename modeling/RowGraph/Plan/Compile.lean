import RowGraph.Plan.Compiled
import RowGraph.Plan.Query

/-!
# Compiling queries

`Query.compile` turns a query into the slices that answer it for any vertex. Without type names one
slice over the category is read. With type names every type is read on its own: an edge label at
both ends at once if nothing restricts or orders its relations, otherwise at each end through the
layout that suits the constraints best. Names that the schema does not know are passed over; the
first type that is named fixes whether the query is about edges or properties.
-/

namespace RowGraph

namespace Query

/-- What a query is compiled with. -/
structure Setting where
  schema : Schema
  hardMax : Nat
  /-- Has the transaction uncommitted changes? -/
  modified : Bool

/-- The end at which a type is read for a query at `d`: a type kept at one end only is read there,
or not at all if the query asks for the other. -/
def endOf? (t : RelationType) (d : Direction) : Option Direction :=
  if t.isDirected .both then some d
  else if d = .both then some (if t.isDirected .out then .out else .into)
  else if t.isDirected d then some d
  else none

/-- What a named type makes of the category of the query, and the end at which it is read, if it is
read at all. -/
def admitted (q : Query) (t : RelationType) (d : Direction) (category : Category) :
    Outcome (Category × Option Direction) :=
  if q.system && !t.isSystem then
    .error (.invalidInput ("can only query for system types: " ++ t.name))
  else if t.implicit then
    .error (.unsupported
      ("implicit key " ++ t.name ++ " cannot be combined with other types or constraints"))
  else if t.isPropertyKey then
    if category = .edge then
      .error (.categoryMismatch Category.edge.plural t.kind.phrase t.name)
    else if d = .into then .ok (category, none)
    else .ok (.property, endOf? t .out)
  else if category = .property then
    .error (.categoryMismatch Category.property.plural t.kind.phrase t.name)
  else .ok (.edge, endOf? t d)

/-- The reads of a type at one end, through the best layout. -/
def readsAtEnd (s : Setting) (q : Query) (keys : KeyIntervals) (t : RelationType)
    (d : Direction) : Outcome (List PlannedRead) := do
  let (layout, score) ← Candidate.select s.schema t d keys.intervals q.order
  ReadPlan.reads {
    layout := layout
    direction := d
    intervals := keys.intervals
    limit := q.limit?
    fitted := keys.fitted
    supportsOrder := score.supportsOrder
    hardMax := s.hardMax
    modified := s.modified }

/-- The reads of a type. -/
def readsOfType (s : Setting) (q : Query) (keys : KeyIntervals) (t : RelationType)
    (d : Direction) : Outcome (List PlannedRead) :=
  if t.isEdgeLabel && d == .both && keys.intervals.isEmpty && q.order.isEmpty then do
    let slice ← Layout.typeSlice t .both .none
    return [⟨slice.withLimit q.limit?, keys.fitted, true⟩]
  else do
    let parts ← (if d = .both then Direction.ends else [d]).mapM (readsAtEnd s q keys t)
    return parts.flatten

/-- The types that are read and their reads, in the order of the names. -/
def readsOfTypes (s : Setting) (q : Query) (keys : KeyIntervals) (d : Direction) :
    Category → List String → Outcome (List TypeId × List PlannedRead)
  | _, [] => .ok ([], [])
  | category, name :: rest =>
    match s.schema.named? name with
    | none => readsOfTypes s q keys d category rest
    | some t => do
      match ← q.admitted t d category with
      | (category, none) => readsOfTypes s q keys d category rest
      | (category, some end?) =>
        let reads ← readsOfType s q keys t end?
        let (types, more) ← readsOfTypes s q keys d category rest
        return (t.id :: types, reads ++ more)

/-- The end at which relations of a category are wanted; properties are kept out only, so that
nothing is left if the query asks for the other end. -/
def wantedEnd? (q : Query) (category : Category) : Option Direction :=
  if category = .property then if q.direction = .into then none else some .out
  else some q.direction

/-- The one read of a query without types. -/
def untypedRead (s : Setting) (q : Query) (d : Direction) (category : Category)
    (conditions : List Condition) : Outcome PlannedRead := do
  let wholeRow := d == .both || (category == .property && d == .out)
  let fitted := wholeRow && conditions.isEmpty && q.adjacent.isNone
  let halved := d != .both && category != .property
  let base := if halved then q.limit?.map ReadLimit.doubled else q.limit?
  let remaining := conditions.length + (if q.adjacent.isSome then 1 else 0)
  let limit := ReadLimit.forRead remaining base s.hardMax s.modified
  let slice ← Layout.categorySlice category q.system
  return ⟨slice.withLimit limit, fitted, q.order.isEmpty⟩

/-- The compiled query over some reads. -/
def finish (q : Query) (d : Direction) (conditions : List Condition) (reads : List PlannedRead) :
    CompiledQuery :=
  ⟨(Condition.and conditions).unwrapped, d, reads, q.order, q.limit⟩

/-- The slices for a category at an end. -/
def plan (s : Setting) (q : Query) (d : Direction) (category : Category)
    (conditions : List Condition) : Outcome CompiledQuery :=
  if q.types.isEmpty then do
    let only ← untypedRead s q d category conditions
    return q.finish d (conditions ++ [.category category, .visibility q.system]) [only]
  else
    let keys := KeyIntervals.ofConditions conditions q.adjacent
    if keys.isUnsatisfiable then .ok .empty
    else do
      let (types, reads) ← readsOfTypes s q keys d category q.types
      if reads.isEmpty then return .empty
      return q.finish d (conditions ++ [.relationType types]) reads

/-- Compiles a query for relations of a category. -/
def compile (s : Setting) (q : Query) (category : Category) : Outcome CompiledQuery := do
  if let some reason := q.error then throw (.invalidInput reason)
  if q.adjacent.isSome && category != .edge then
    throw (.invalid "adjacent vertex constraints need an edge query")
  if q.limit = 0 then return .empty
  let some d := q.wantedEnd? category | return .empty
  match ← Constraint.normalize s.schema q.constraints with
  | none => return .empty
  | some conditions => plan s q d category conditions

/-- Refuses to run a query that must not look at local changes unless it is simple. -/
def checkRunnable (q : Query) (compiled : CompiledQuery) : Outcome Unit :=
  if q.onlyLoaded && !compiled.isEmpty && !compiled.isSimple then
    .error (.invalid "query_only_loaded needs a single fitted, ordered slice")
  else .ok ()

/-- Has a vertex at most one relation of every named type at the end that the query asks for? Then
all of them are kept in one place even if the vertex is partitioned. -/
def namesUniqueTypes (schema : Schema) (q : Query) : Bool :=
  !q.types.isEmpty && (q.types.filterMap schema.named?).all fun t =>
    t.multiplicity.isUnique (if t.isPropertyKey then .out else q.direction)

end Query

end RowGraph
