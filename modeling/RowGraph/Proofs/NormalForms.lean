import RowGraph.Proofs.ConstraintOrder
import RowGraph.Proofs.StoredRelations

/-!
# Normal forms

The normal form of constraints says what they say, whatever the schema.  Each constraint is taken by itself
(`Constraint.normalizeFrom_eq_some`), and what is made of one are comparisons of its key, or alternatives of
equalities with distinct values.

* `normalize_faithful`: the conditions are distinct, in this form, and hold of the relations that satisfy the
  constraints; where there are none, no relation does; and only a constraint that compares a key with what it
  cannot be has no normal form.
-/

namespace RowGraph

/-- A comparison of one key, or alternatives for its value. -/
inductive Condition.Normal : Condition → Prop
  | comparison (key : TypeId) (c : Comparison) (expected : Option Value) : Normal (.predicate key c expected)
  | alternatives (key : TypeId) {values : List Value} (hne : values ≠ []) (hdistinct : values.Nodup) :
      Normal (.or (values.map fun w => .predicate key .eq (some w)))

/-- Is a key that a schema knows a property key or an edge label kept at its out-vertex only, and are the values
of its kind? -/
def Constraint.Admissible (schema : Schema) (c : Constraint) : Prop :=
  ∀ t, schema.named? c.key = some t →
    (t.isEdgeLabel = true → t.isDirected .out = true) ∧ c.test.Fits t.keyKind?

theorem nodup_eraseDups {α : Type} [BEq α] [LawfulBEq α] : ∀ l : List α, l.eraseDups.Nodup
  | [] => List.nodup_nil
  | a :: l => by
    rw [List.eraseDups_cons, List.nodup_cons]
    refine ⟨fun ha => ?_, nodup_eraseDups (l.filter fun b => !b == a)⟩
    have hne := (List.mem_filter.mp (List.mem_eraseDups.mp ha)).2
    simp at hne
termination_by l => l.length
decreasing_by exact Nat.lt_succ_of_le (List.length_filter_le _ _)

namespace Constraint

variable {schema : Schema} {conditions new : List Condition} {constraints : List Constraint} {c : Constraint}

theorem normal_conditions? {key : TypeId} {kind : Option ValueKind} {test : KeyTest}
    (h : test.conditions? key kind = some new) : ∀ c ∈ new, c.Normal := by
  unfold KeyTest.conditions? at h
  split at h <;> cases h
  · rw [List.forall_mem_singleton]
    exact .comparison key _ _
  · intro c hc
    obtain ⟨w, -, rfl⟩ := List.mem_map.mp hc
    exact .comparison key .ne (some w)
  · rw [List.forall_mem_singleton]
    exact .comparison key .eq _
  · rename_i values hne _
    rw [List.forall_mem_singleton]
    refine .alternatives key (fun hnil => hne ?_) (nodup_eraseDups _)
    cases values with
    | nil => rfl
    | cons w values =>
      rw [List.map_cons, List.eraseDups_cons] at hnil
      cases hnil

theorem normal_conditionsFor (h : conditionsFor schema c = .ok (some new)) : ∀ d ∈ new, d.Normal := by
  unfold conditionsFor at h
  split at h
  · split at h <;> cases h
    simp
  · obtain ⟨kind, -, h⟩ := Outcome.bind_eq_ok.mp h
    exact normal_conditions? (conditionsOf_eq_ok.mp h).1.symm

/-- An admissible constraint has conditions, or is never satisfied. -/
theorem Admissible.conditionsFor (h : c.Admissible schema) :
    ∃ found, conditionsFor schema c = .ok found := by
  unfold Constraint.conditionsFor
  cases hn : schema.named? c.key with
  | none => exact ⟨_, rfl⟩
  | some t =>
    obtain ⟨hdirected, hfits⟩ := h t hn
    have hkind : expectedKind t = .ok t.keyKind? := by
      unfold expectedKind RelationType.keyKind?
      split
      · rename_i hedge
        rw [if_pos (hdirected hedge)]
      · rfl
    exact ⟨_, Outcome.bind_eq_ok.mpr ⟨_, hkind, conditionsOf_eq_ok.mpr ⟨rfl, hfits⟩⟩⟩

theorem normalizeFrom_error {e : Failure} (h : normalizeFrom schema conditions constraints = .error e) :
    ∃ c ∈ constraints, ¬c.Admissible schema := by
  induction constraints generalizing conditions with
  | nil => cases h
  | cons c constraints ih =>
    have later {conditions : List Condition}
        (h : normalizeFrom schema conditions constraints = .error e) :
        ∃ d ∈ c :: constraints, ¬d.Admissible schema := by
      obtain ⟨d, hd, hnot⟩ := ih h
      exact ⟨d, List.mem_cons_of_mem _ hd, hnot⟩
    rw [normalizeFrom_cons] at h
    rcases Outcome.bind_eq_error.mp h with h | ⟨found, -, h⟩
    · refine ⟨c, List.mem_cons_self, fun hc => ?_⟩
      obtain ⟨found, hfound⟩ := hc.conditionsFor
      rw [hfound] at h
      cases h
    · cases found with
      | none => cases h
      | some new => exact later h

/-- The normal form of constraints: distinct conditions that hold of the relations that satisfy the constraints,
or none, where no relation does.  It is missing only if a constraint asks of a key what it cannot be. -/
theorem normalize_faithful (schema : Schema) (constraints : List Constraint) :
    match normalize schema constraints with
    | .ok (some conditions) => conditions.Nodup ∧ (∀ c ∈ conditions, c.Normal) ∧
        ∀ r v, (∀ c ∈ conditions, c.evaluate r v = true) ↔ ∀ c ∈ constraints, c.holds schema v r = true
    | .ok none => ∀ r v, ∃ c ∈ constraints, c.holds schema v r = false
    | .error _ => ∃ c ∈ constraints, ¬c.Admissible schema := by
  cases h : normalize schema constraints with
  | error e => exact normalizeFrom_error h
  | ok found =>
    cases found with
    | none => exact fun r v => normalizeFrom_none h v r
    | some conditions =>
      obtain ⟨hall, rfl⟩ := normalizeFrom_eq_some.mp h
      refine ⟨nodup_addNew .nil _, fun d hd => ?_, fun r v => normalize_some h⟩
      simp only [mem_addNew, List.not_mem_nil, false_or, List.mem_flatMap] at hd
      obtain ⟨c, hc, hd⟩ := hd
      exact normal_conditionsFor (hall c hc) d hd

/-- Weights of one, said twice, but not of two, and no height of one. -/
def weighingOne : List Constraint := [
  ⟨"weight", .oneOf [.int 1, .float (.ofInt 1)]⟩, ⟨"height", .noneOf [.int 1]⟩,
  ⟨"weight", .compare .ne (some (.int 2))⟩]

/-- Whole numbers are weighed as floating-point ones, and nothing has a height. -/
theorem normalize_faithful_weighed : ∃ conditions,
    normalize Layout.Weighed.schema weighingOne = .ok (some conditions) ∧ conditions.Nodup ∧
      conditions.length = 2 ∧
      ∀ c ∈ weighingOne, c.holds Layout.Weighed.schema ⟨1⟩ (Layout.Weighed.weight (.ofInt 1) []) = true := by
  have hnormal : normalize Layout.Weighed.schema weighingOne = .ok (some [
      .or [.predicate ⟨1024⟩ .eq (some (.float (.ofInt 1)))],
      .predicate ⟨1024⟩ .ne (some (.float (.ofInt 2)))]) :=
    Outcome.eq_ok_of_toOption (eq_of_beq (by decide +kernel))
  have hfaithful := normalize_faithful Layout.Weighed.schema weighingOne
  rw [hnormal] at hfaithful
  obtain ⟨hnodup, -, hmeans⟩ := hfaithful
  exact ⟨_, hnormal, hnodup, rfl, (hmeans _ _).mp (by decide +kernel)⟩

end Constraint

end RowGraph
