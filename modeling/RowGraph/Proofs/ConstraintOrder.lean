import RowGraph.Proofs.CompiledReads
import RowGraph.Proofs.Intersections
import RowGraph.Proofs.SharedColumns

/-!
# The order of constraints

A query compiles to the same reads in whatever order its constraints are given.  The conditions of the normal
form are the same ones in another order (`normalize_perm`).  The intervals that they leave to the keys are
alike (`alike_ofConditions`): some key has no value left in both orders, and nothing is read, or the
intervals are equal, and so is all that is made of them (`plan_perm`).  The conditions that are kept for checking are
a conjunction, whose order does not matter either.

* `compile_perm`: the compiled queries differ in the order of a conjunction at most.
-/

namespace RowGraph

/-! ## The same conditions -/

namespace Condition

mutual

theorem same_self : ∀ c : Condition, same c c = true
  | .and cs => by rw [same, sameAll_self cs]
  | .or cs => by rw [same, sameAll_self cs]
  | .predicate .. => by simp [same]
  | .category _ => by simp [same]
  | .visibility _ => by simp [same]
  | .relationType _ => by simp [same]
  | .direction .. => by simp [same]
  | .incidence .. => by simp [same]

theorem sameAll_self : ∀ cs : List Condition, sameAll cs cs = true
  | [] => rfl
  | c :: cs => by rw [sameAll, same_self c, sameAll_self cs]; rfl

end

instance : LawfulBEq Condition where
  eq_of_beq := eq_of_same
  rfl := same_self _

variable {r : Relation} {v : VertexId} {conditions conditions' : List Condition}

theorem evaluate_unwrapped (r : Relation) (v : VertexId) (c : Condition) :
    c.unwrapped.evaluate r v = c.evaluate r v := by
  unfold unwrapped
  split
  · split
    · simp [evaluate, holdsAll]
    · rfl
  · rfl

/-- A conjunction does not depend on the order of its parts. -/
theorem holdsAll_perm (h : conditions.Perm conditions') : holdsAll r v conditions = holdsAll r v conditions' := by
  rw [Bool.eq_iff_iff, holdsAll_iff, holdsAll_iff]
  exact forall_congr' fun c => imp_congr_left h.mem_iff

end Condition

namespace Constraint

variable {schema : Schema} {conditions out : List Condition} {constraints constraints' : List Constraint}

/-- The conditions that say what a constraint says; none if nothing satisfies it. -/
def conditionsFor (schema : Schema) (c : Constraint) : Outcome (Option (List Condition)) :=
  match schema.named? c.key with
  | none => .ok (if holdsOfUnknown c.test then some [] else none)
  | some t => do conditionsOf t (← expectedKind t) c.test

/-- The conditions, if there are any. -/
def newConditions (schema : Schema) (c : Constraint) : List Condition :=
  match conditionsFor schema c with
  | .ok (some new) => new
  | _ => []

theorem normalizeFrom_cons (schema : Schema) (conditions : List Condition) (c : Constraint)
    (rest : List Constraint) : normalizeFrom schema conditions (c :: rest) =
      (do match ← conditionsFor schema c with
        | none => return none
        | some new => normalizeFrom schema (addNew conditions new) rest) := by
  rw [normalizeFrom, conditionsFor]
  cases schema.named? c.key with
  | none => cases holdsOfUnknown c.test <;> rfl
  | some t =>
    dsimp only
    cases expectedKind t <;> rfl

theorem addNew_append (conditions new new' : List Condition) :
    addNew conditions (new ++ new') = addNew (addNew conditions new) new' :=
  List.foldl_append

/-- Every constraint is taken by itself, whatever comes before it. -/
theorem normalizeFrom_eq_some : normalizeFrom schema conditions constraints = .ok (some out) ↔
    (∀ c ∈ constraints, conditionsFor schema c = .ok (some (newConditions schema c))) ∧
      out = addNew conditions (constraints.flatMap (newConditions schema)) := by
  induction constraints generalizing conditions with
  | nil =>
    rw [normalizeFrom]
    simp [addNew, eq_comm]
  | cons c constraints ih =>
    rw [normalizeFrom_cons, List.forall_mem_cons, List.flatMap_cons, addNew_append, and_assoc, ← ih]
    cases hc : conditionsFor schema c with
    | error e => simp [bind, Except.bind]
    | ok found =>
      cases found with
      | none => simp [bind, Except.bind, pure, Except.pure]
      | some new =>
        have hnew : newConditions schema c = new := by rw [newConditions, hc]
        rw [hnew]
        simp [bind, Except.bind]

theorem nodup_addNew (h : conditions.Nodup) (new : List Condition) : (addNew conditions new).Nodup := by
  unfold addNew
  induction new generalizing conditions with
  | nil => exact h
  | cons c new ih =>
    apply ih
    dsimp only
    split
    · exact h
    · rename_i hc
      have hnot : c ∉ conditions := fun hmem => hc (List.contains_iff_mem.mpr hmem)
      rw [List.nodup_append]
      refine ⟨h, List.pairwise_singleton _ c, ?_⟩
      rintro a ha b hb rfl
      exact hnot (List.mem_singleton.mp hb ▸ ha)

/-- Constraints in another order have the same normal form in another order. -/
theorem normalize_perm (hp : constraints.Perm constraints')
    (h : normalize schema constraints = .ok (some conditions)) :
    ∃ conditions', normalize schema constraints' = .ok (some conditions') ∧ conditions.Perm conditions' := by
  obtain ⟨hall, rfl⟩ := normalizeFrom_eq_some.mp h
  refine ⟨_, normalizeFrom_eq_some.mpr ⟨fun c hc => hall c (hp.mem_iff.mpr hc), rfl⟩, ?_⟩
  rw [List.perm_ext_iff_of_nodup (nodup_addNew .nil _) (nodup_addNew .nil _)]
  intro c
  simp only [mem_addNew, List.mem_flatMap, hp.mem_iff]

end Constraint

/-! ## Alike intervals of keys -/

namespace KeyIntervals

variable {k k' : KeyIntervals} {conditions conditions' : List Condition}

/-- The interval that a condition gives to a key, if it gives one. -/
def given (key : TypeId) (c : Condition) : Option Interval :=
  (ofCondition? c).bind fun (key', i) => if key = key' then some i else none

theorem get?_narrow (k : KeyIntervals) (key key' : TypeId) (i : Interval) :
    (k.narrow key' i).intervals.get? key =
      if key = key' then Interval.meet (k.intervals.get? key) i else k.intervals.get? key := by
  unfold narrow
  rw [SortedMap.get?_put]
  by_cases h : key = key'
  · subst h
    rw [if_pos rfl, if_pos rfl]
    cases k.intervals.get? key <;> rfl
  · rw [if_neg h, if_neg h]

/-- Under every key conditions leave what the intervals have in common that they give to it. -/
theorem get?_foldl_absorb (conditions : List Condition) (k : KeyIntervals) (key : TypeId) :
    (conditions.foldl absorb k).intervals.get? key =
      (conditions.filterMap (given key)).foldl Interval.meet (k.intervals.get? key) := by
  induction conditions generalizing k with
  | nil => rfl
  | cons c conditions ih =>
    rw [List.foldl_cons, ih, List.filterMap_cons]
    unfold given absorb
    cases ofCondition? c with
    | none => rfl
    | some found =>
      obtain ⟨key', i⟩ := found
      simp only [Option.bind_some, get?_narrow]
      by_cases h : key = key'
      · rw [if_pos h, if_pos h]
        rfl
      · rw [if_neg h, if_neg h]

theorem fitted_foldl_absorb (conditions : List Condition) (k : KeyIntervals) :
    (conditions.foldl absorb k).fitted =
      (k.fitted && conditions.all fun c => (ofCondition? c).isSome) := by
  induction conditions generalizing k with
  | nil => simp
  | cons c conditions ih =>
    rw [List.foldl_cons, ih, List.all_cons]
    unfold absorb
    cases ofCondition? c <;> simp [narrow]

theorem sorted_ofCondition {c : Condition} {key : TypeId} {i : Interval}
    (h : ofCondition? c = some (key, i)) : i.Sorted := by
  unfold ofCondition? at h
  split at h
  · obtain ⟨_, -, he⟩ := Option.map_eq_some_iff.mp h
    rw [← (Prod.mk.inj he).2]
    exact Interval.sorted_ofValues _
  · rename_i c x
    obtain ⟨j, hj, he⟩ := Option.map_eq_some_iff.mp h
    rw [← (Prod.mk.inj he).2]
    cases c <;> simp only [ofComparison?, Option.some.injEq, reduceCtorEq] at hj <;> subst hj
    case eq => exact Interval.sorted_point x
    all_goals exact Interval.sorted_between _ _
  · cases h

theorem sorted_given {key : TypeId} (conditions : List Condition) :
    ∀ i ∈ conditions.filterMap (given key), i.Sorted := by
  intro i hi
  obtain ⟨c, -, hc⟩ := List.mem_filterMap.mp hi
  obtain ⟨⟨key', j⟩, hj, he⟩ := Option.bind_eq_some_iff.mp hc
  dsimp only at he
  split at he
  · exact Option.some.inj he ▸ sorted_ofCondition hj
  · cases he

/-- The intervals that conditions leave to the keys are in order. -/
theorem sorted_ofConditions {adjacent : Option Adjacent} {key : TypeId} :
    ∀ i ∈ (ofConditions conditions adjacent).intervals.get? key, i.Sorted := by
  have habsorbed : ∀ i ∈ (conditions.foldl absorb ⟨.empty, true⟩).intervals.get? key, i.Sorted := by
    rw [get?_foldl_absorb]
    exact Interval.sorted_foldl_meet (sorted_given conditions) (by simp [SortedMap.get?_empty])
  unfold ofConditions absorbAdjacent
  split
  · exact habsorbed
  · rw [get?_narrow]
    split
    · exact Interval.sorted_meet habsorbed (Interval.sorted_point _)
    · exact habsorbed
  · exact habsorbed

/-- Alike intervals under every key, fitted or not both. -/
structure Alike (k k' : KeyIntervals) : Prop where
  intervals : ∀ key, Option.Rel Interval.Alike (k.intervals.get? key) (k'.intervals.get? key)
  fitted : k.fitted = k'.fitted

theorem Alike.absorbAdjacent (h : k.Alike k') (adjacent : Option Adjacent) :
    (k.absorbAdjacent adjacent).Alike (k'.absorbAdjacent adjacent) := by
  unfold KeyIntervals.absorbAdjacent
  split
  · exact h
  · rename_i w
    refine ⟨fun key => ?_, h.fitted⟩
    rw [get?_narrow, get?_narrow]
    split
    · exact Interval.alike_foldl (h.intervals key) [.point (.vertex w)]
    · exact h.intervals key
  · exact ⟨h.intervals, rfl⟩

/-- Conditions in another order leave alike intervals. -/
theorem alike_ofConditions (h : conditions.Perm conditions') (adjacent : Option Adjacent) :
    (ofConditions conditions adjacent).Alike (ofConditions conditions' adjacent) := by
  refine Alike.absorbAdjacent ⟨fun key => ?_, ?_⟩ adjacent
  · rw [get?_foldl_absorb, get?_foldl_absorb]
    exact Interval.alike_foldl_meet (h.filterMap _) (sorted_given conditions) (by simp)
  · rw [fitted_foldl_absorb, fitted_foldl_absorb, h.all_eq]

theorem isUnsatisfiable_iff :
    k.isUnsatisfiable = true ↔ ∃ key i, k.intervals.get? key = some i ∧ i.isEmpty = true := by
  unfold isUnsatisfiable
  simp only [List.any_eq_true, SortedMap.mem_values_iff]
  constructor
  · rintro ⟨i, ⟨key, hi⟩, he⟩
    exact ⟨key, i, hi, he⟩
  · rintro ⟨key, i, hi, he⟩
    exact ⟨i, ⟨key, hi⟩, he⟩

/-- Of alike intervals of keys some key has no value left in both, or they are the same. -/
theorem Alike.unsatisfiable_or_eq (h : k.Alike k') :
    k.isUnsatisfiable = true ∧ k'.isUnsatisfiable = true ∨ k = k' := by
  by_cases hempty : ∃ key i i', k.intervals.get? key = some i ∧ k'.intervals.get? key = some i' ∧
      i.isEmpty = true ∧ i'.isEmpty = true
  · obtain ⟨key, i, i', hi, hi', he, he'⟩ := hempty
    exact .inl ⟨isUnsatisfiable_iff.mpr ⟨key, i, hi, he⟩, isUnsatisfiable_iff.mpr ⟨key, i', hi', he'⟩⟩
  · right
    have hget : ∀ key, k.intervals.get? key = k'.intervals.get? key := by
      intro key
      have hkey := h.intervals key
      generalize hi : k.intervals.get? key = present at hkey
      generalize hi' : k'.intervals.get? key = present' at hkey
      cases hkey with
      | none => rfl
      | some hkey =>
        rcases hkey with rfl | ⟨he, he'⟩
        · rfl
        · exact absurd ⟨key, _, _, hi, hi', he, he'⟩ hempty
    cases k
    cases k'
    rw [KeyIntervals.mk.injEq]
    exact ⟨SortedMap.ext_get? hget, h.fitted⟩

end KeyIntervals

/-! ## The same compiled query -/

/-- Two compiled queries read the same and keep the same relations. -/
structure CompiledQuery.Equivalent (a b : CompiledQuery) : Prop where
  reads : a.reads = b.reads
  condition : ∀ r v, a.condition.evaluate r v = b.condition.evaluate r v
  direction : a.direction = b.direction
  order : a.order = b.order
  limit : a.limit = b.limit

namespace Query

variable {s : Setting} {q : Query} {keys : KeyIntervals} {d : Direction} {category : Category}
  {conditions conditions' : List Condition}

/-- The query with other constraints. -/
def withConstraints (q : Query) (constraints : List Constraint) : Query := { q with constraints := constraints }

theorem readsOfTypes_withConstraints (constraints : List Constraint) (names : List String) :
    readsOfTypes s (q.withConstraints constraints) keys d category names =
      readsOfTypes s q keys d category names := by
  induction names generalizing category with
  | nil => rfl
  | cons name names ih =>
    unfold readsOfTypes
    simp only [ih]
    rfl

theorem plan_withConstraints (constraints : List Constraint) :
    plan s (q.withConstraints constraints) d category conditions = plan s q d category conditions := by
  unfold plan
  simp only [readsOfTypes_withConstraints]
  rfl

theorem untypedRead_perm (h : conditions.Perm conditions') :
    untypedRead s q d category conditions = untypedRead s q d category conditions' := by
  unfold untypedRead
  rw [h.length_eq, h.isEmpty_eq]

/-- Conditions in another order are kept in another order. -/
theorem equivalent_finish (h : conditions.Perm conditions') (extra : List Condition) (reads : List PlannedRead) :
    (q.finish d (conditions ++ extra) reads).Equivalent (q.finish d (conditions' ++ extra) reads) := by
  refine ⟨rfl, fun r v => ?_, rfl, rfl, rfl⟩
  unfold finish
  rw [Condition.evaluate_unwrapped, Condition.evaluate_unwrapped, Condition.evaluate, Condition.evaluate,
    Condition.holdsAll_perm (h.append_right extra)]

/-- The two ways in which compiling in one order and in another comes to the same. -/
def SameOutcome (a b : Outcome CompiledQuery) : Prop :=
  (∃ e, a = .error e ∧ b = .error e) ∨ ∃ c c', a = .ok c ∧ b = .ok c' ∧ c.Equivalent c'

theorem SameOutcome.refl (a : Outcome CompiledQuery) : SameOutcome a a := by
  cases a with
  | error e => exact .inl ⟨e, rfl, rfl⟩
  | ok c => exact .inr ⟨c, c, rfl, rfl, rfl, fun _ _ => rfl, rfl, rfl, rfl⟩

/-- Conditions in another order are planned in the same way. -/
theorem plan_perm (h : conditions.Perm conditions') :
    SameOutcome (plan s q d category conditions) (plan s q d category conditions') := by
  unfold plan
  split
  · rw [untypedRead_perm h]
    cases untypedRead s q d category conditions' with
    | error e => exact .inl ⟨e, rfl, rfl⟩
    | ok only => exact .inr ⟨_, _, rfl, rfl, equivalent_finish h _ _⟩
  · rcases (KeyIntervals.alike_ofConditions h q.adjacent).unsatisfiable_or_eq with ⟨hu, hu'⟩ | heq
    · simp only [hu, hu', if_true]
      exact .refl _
    · rw [heq]
      dsimp only
      split
      · exact .refl _
      · cases readsOfTypes s q (KeyIntervals.ofConditions conditions' q.adjacent) d category q.types with
        | error e => exact .inl ⟨e, rfl, rfl⟩
        | ok found =>
          obtain ⟨types, reads⟩ := found
          cases reads with
          | nil => exact .refl _
          | cons read reads => exact .inr ⟨_, _, rfl, rfl, equivalent_finish h _ _⟩

variable {l l' : List Constraint}

/-- Constraints in another order have a normal form too, and compiling with them fails in the same way or
gives an equivalent query. -/
theorem compile_perm (s : Setting) (q : Query) (category : Category) (hp : l.Perm l')
    (h : Constraint.normalize s.schema l = .ok (some conditions)) :
    (∃ conditions', Constraint.normalize s.schema l' = .ok (some conditions')) ∧
      SameOutcome ((q.withConstraints l).compile s category) ((q.withConstraints l').compile s category) := by
  obtain ⟨conditions', h', hperm⟩ := Constraint.normalize_perm hp h
  refine ⟨⟨conditions', h'⟩, ?_⟩
  have hwanted (l : List Constraint) : (q.withConstraints l).wantedEnd? category = q.wantedEnd? category := rfl
  unfold compile
  simp only [plan_withConstraints, hwanted]
  -- all that comes before the normal form looks at the rest of the query
  rw [show (q.withConstraints l).constraints = l from rfl, show (q.withConstraints l').constraints = l' from rfl,
    h, h']
  cases herror : q.error with
  | some reason =>
    simp only [withConstraints, herror]
    exact .inl ⟨_, rfl, rfl⟩
  | none =>
    simp only [withConstraints, herror]
    split
    · exact .inl ⟨_, rfl, rfl⟩
    · split
      · exact .refl _
      · cases q.wantedEnd? category with
        | none => exact .refl _
        | some d => exact plan_perm hperm

/-- The time is four, said by its bounds, and not seven. -/
def atFour : List Constraint := [
  ⟨"time", .compare .ge (some (.int 4))⟩, ⟨"time", .compare .ne (some (.int 7))⟩,
  ⟨"time", .compare .le (some (.int 4))⟩]

/-- What a vertex owns. -/
def owned : Query := build Layout.Owned.schema ⟨100, false, false⟩ [.types ["owns"], .direction .out]

def ownedSetting : Setting := ⟨Layout.Owned.schema, 100, false⟩

theorem compile_perm_owned :
    ∃ c c', (owned.withConstraints atFour).compile ownedSetting .edge = .ok c ∧
      (owned.withConstraints atFour.reverse).compile ownedSetting .edge = .ok c' ∧
      c.isEmpty = false ∧ c.Equivalent c' := by
  have hnormal : Constraint.normalize Layout.Owned.schema atFour = .ok (some [
      .predicate ⟨1024⟩ .ge (some (.int 4)), .predicate ⟨1024⟩ .ne (some (.int 7)),
      .predicate ⟨1024⟩ .le (some (.int 4))]) := rfl
  have hread : ((owned.withConstraints atFour).compile ownedSetting .edge).toOption.any
      (fun c => !c.isEmpty) = true := by decide +kernel
  obtain ⟨-, ⟨e, he, -⟩ | ⟨c, c', hc, hc', heq⟩⟩ :=
    compile_perm ownedSetting owned .edge (List.reverse_perm atFour).symm hnormal
  · rw [he] at hread
    cases hread
  · refine ⟨c, c', hc, hc', ?_, heq⟩
    rw [hc] at hread
    have hsome : (!c.isEmpty) = true := hread
    simpa using hsome

end Query

end RowGraph
