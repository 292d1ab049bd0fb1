import RowGraph.Proofs.Outcome
import RowGraph.Plan.Compile

/-!
# Queries without their limit

A limit decides how much is read and returned, never what is read: without it a query compiles to the
same slices, equally fitted and ordered, and to the same condition (`compile_without_limit`).
-/

namespace RowGraph

/-- The read of the whole slice. -/
def PlannedRead.unlimited (r : PlannedRead) : PlannedRead :=
  { r with slice := r.slice.withLimit none }

/-- The compiled query for all results; one that reads nothing stays as it is. -/
def CompiledQuery.unlimited (q : CompiledQuery) : CompiledQuery :=
  if q.isEmpty then q
  else { q with reads := q.reads.map PlannedRead.unlimited, limit := ReadLimit.most }

namespace CompiledQuery

variable (q : CompiledQuery)

@[simp] theorem reads_unlimited : q.unlimited.reads = q.reads.map PlannedRead.unlimited := by
  unfold unlimited
  split
  · rename_i h
    rw [List.isEmpty_iff.mp h]
    rfl
  · rfl

@[simp] theorem order_unlimited : q.unlimited.order = q.order := by
  unfold unlimited
  split <;> rfl

@[simp] theorem isEmpty_unlimited : q.unlimited.isEmpty = q.isEmpty := by
  simp [isEmpty]

@[simp] theorem isSimple_unlimited : q.unlimited.isSimple = q.isSimple := by
  unfold isSimple
  rw [reads_unlimited]
  rcases q.reads with _ | ⟨read, _ | ⟨read', reads⟩⟩ <;> rfl

@[simp] theorem bind_unlimited (v : VertexId) (adjacent : Option Adjacent) :
    q.unlimited.bind v adjacent = q.bind v adjacent := by
  have hcondition : q.unlimited.condition = q.condition := by unfold unlimited; split <;> rfl
  have hdirection : q.unlimited.direction = q.direction := by unfold unlimited; split <;> rfl
  unfold bind
  rw [isEmpty_unlimited, hcondition, hdirection]

end CompiledQuery

/-- The query for all results. -/
def Query.unlimited (q : Query) : Query := { q with limit := ReadLimit.most }

/-! ## The reads of one layout -/

namespace ReadPlan

variable {p : ReadPlan}

theorem read_unlimited (used : Nat) (restriction : KeyRestriction) (last : Option Interval) :
    read { p with limit := none } used restriction last =
      (p.read used restriction last).map PlannedRead.unlimited := by
  unfold read
  cases Layout.typeSlice p.layout p.direction restriction <;> rfl

theorem expand_without_limit (used : Nat) (points : List Value) (last : Option Interval)
    (components : List TypeId) : expand { p with limit := none } used points last components =
      (p.expand used points last components).map (List.map PlannedRead.unlimited) := by
  have hone {used : Nat} {restriction : KeyRestriction} {last : Option Interval} :
      (do return [← read { p with limit := none } used restriction last] : Outcome (List PlannedRead)) =
        (do return [← p.read used restriction last] : Outcome (List PlannedRead)).map
          (List.map PlannedRead.unlimited) := by
    rw [read_unlimited]
    cases p.read used restriction last <;> rfl
  induction components generalizing used points last with
  | nil => exact hone
  | cons key rest ih =>
    unfold expand
    dsimp only
    cases p.intervals.get? key with
    | none => exact hone
    | some interval =>
      cases interval with
      | range lower upper => exact hone
      | points values =>
        simp only [ih]
        rw [Outcome.mapM_map]
        cases values.mapM fun v => p.expand (used + 1) (points ++ [v]) (some (.points values)) rest with
        | error e => rfl
        | ok parts => exact congrArg Except.ok List.map_flatten.symm

end ReadPlan

/-! ## The reads of a query -/

namespace Query

variable {s : Setting} {q : Query} {keys : KeyIntervals} {t : RelationType} {d : Direction}
  {category : Category} {compiled : CompiledQuery}

theorem limit?_unlimited (q : Query) : q.unlimited.limit? = none := if_pos rfl

theorem readsAtEnd_without_limit : readsAtEnd s q.unlimited keys t d =
    (readsAtEnd s q keys t d).map (List.map PlannedRead.unlimited) := by
  unfold readsAtEnd
  rw [limit?_unlimited, show q.unlimited.order = q.order from rfl]
  cases Candidate.select s.schema t d keys.intervals q.order with
  | error e => rfl
  | ok best => exact ReadPlan.expand_without_limit (p := ⟨best.1, d, keys.intervals, q.limit?, keys.fitted,
      best.2.supportsOrder, s.hardMax, s.modified⟩) 0 [] none _

theorem readsOfType_without_limit : readsOfType s q.unlimited keys t d =
    (readsOfType s q keys t d).map (List.map PlannedRead.unlimited) := by
  unfold readsOfType
  rw [limit?_unlimited, show q.unlimited.order = q.order from rfl]
  split
  · cases Layout.typeSlice t .both .none <;> rfl
  · rw [show readsAtEnd s q.unlimited keys t =
      fun e => (readsAtEnd s q keys t e).map (List.map PlannedRead.unlimited) from
        funext fun _ => readsAtEnd_without_limit, Outcome.mapM_map]
    cases (if d = .both then Direction.ends else [d]).mapM (readsAtEnd s q keys t) with
    | error e => rfl
    | ok parts => exact congrArg Except.ok List.map_flatten.symm

theorem readsOfTypes_without_limit (names : List String) : readsOfTypes s q.unlimited keys d category names =
    (readsOfTypes s q keys d category names).map
      fun found => (found.1, found.2.map PlannedRead.unlimited) := by
  induction names generalizing category with
  | nil => rfl
  | cons name names ih =>
    unfold readsOfTypes
    split
    · exact ih
    · rename_i t _
      rw [show q.unlimited.admitted t d category = q.admitted t d category from rfl]
      cases q.admitted t d category with
      | error e => rfl
      | ok entry =>
        obtain ⟨category, end?⟩ := entry
        cases end? with
        | none => exact ih
        | some e =>
          show (readsOfType s q.unlimited keys t e >>= fun reads =>
            readsOfTypes s q.unlimited keys d category names >>= _) = _
          rw [readsOfType_without_limit, ih]
          show _ = Except.map _ (readsOfType s q keys t e >>= fun reads =>
            readsOfTypes s q keys d category names >>= _)
          cases readsOfType s q keys t e with
          | error e => rfl
          | ok reads =>
            cases readsOfTypes s q keys d category names with
            | error e => rfl
            | ok more => exact congrArg (fun x => Except.ok (_, x)) List.map_append.symm

theorem untypedRead_without_limit (conditions : List Condition) :
    untypedRead s q.unlimited d category conditions =
      (untypedRead s q d category conditions).map PlannedRead.unlimited := by
  unfold untypedRead
  rw [limit?_unlimited, show q.unlimited.system = q.system from rfl]
  cases Layout.categorySlice category q.system with
  | error e => rfl
  | ok slice =>
    simp only [Option.map_none, ite_self]
    rfl

/-! ## Compiled queries -/

theorem plan_without_limit (conditions : List Condition) : plan s q.unlimited d category conditions =
    (plan s q d category conditions).map CompiledQuery.unlimited := by
  unfold plan
  rw [show q.unlimited.types = q.types from rfl]
  split
  · rw [untypedRead_without_limit]
    cases untypedRead s q d category conditions <;> rfl
  · rw [show q.unlimited.adjacent = q.adjacent from rfl]
    dsimp only
    split
    · rfl
    · rw [readsOfTypes_without_limit]
      cases readsOfTypes s q (KeyIntervals.ofConditions conditions q.adjacent) d category q.types with
      | error e => rfl
      | ok found =>
        obtain ⟨types, reads⟩ := found
        cases reads <;> rfl

/-- A query that wants any results compiles without its limit to the same query for all of them. -/
theorem compile_without_limit (hlimit : q.limit ≠ 0) (s : Setting) (category : Category) :
    q.unlimited.compile s category = (q.compile s category).map CompiledQuery.unlimited := by
  have hmost : ReadLimit.most ≠ 0 := by decide
  unfold compile
  rw [show q.unlimited.error = q.error from rfl, show q.unlimited.adjacent = q.adjacent from rfl,
    show q.unlimited.constraints = q.constraints from rfl,
    show q.unlimited.wantedEnd? category = q.wantedEnd? category from rfl,
    show q.unlimited.limit = ReadLimit.most from rfl, if_neg hlimit, if_neg hmost]
  cases q.error with
  | some reason => rfl
  | none =>
    dsimp only
    split
    · rfl
    · cases q.wantedEnd? category with
      | none => rfl
      | some d =>
        cases Constraint.normalize s.schema q.constraints with
        | error e => rfl
        | ok conditions =>
          cases conditions with
          | none => rfl
          | some conditions => exact plan_without_limit conditions

end Query

end RowGraph
