import RowGraph.Proofs.BuiltSchema

/-!
# What constraints mean

A constraint says something about the value that a relation has under a key.  Brought into normal
form, constraints hold of a relation exactly when the conditions do (`normalize_some`), and where the
normal form finds that nothing can satisfy them, nothing does (`normalizeFrom_none`).  The values in the
conditions are of the kinds that their keys declare (`Condition.Typed`).
-/

namespace RowGraph

/-- A value as a key of a kind takes it: whole numbers become floating-point ones where these are
declared. -/
def Value.asKind (kind : Option ValueKind) (v : Value) : Value :=
  match kind, v with
  | some .float, .int i => .float (.ofInt i.toInt)
  | _, v => v

/-- Does the value under a key of a kind pass the test? -/
def KeyTest.passes (kind : Option ValueKind) (actual : Option Value) : KeyTest → Bool
  | .compare c expected => c.evaluate actual (expected.map (Value.asKind kind))
  | .oneOf values => values.any fun e => Comparison.eq.evaluate actual (some (e.asKind kind))
  | .noneOf values => values.all fun e => Comparison.ne.evaluate actual (some (e.asKind kind))

/-- The values that a test names. -/
def KeyTest.values : KeyTest → List Value
  | .compare _ expected => expected.toList
  | .oneOf values => values
  | .noneOf values => values

/-- Are the values that a test names of a kind, or can they be taken as such? -/
def KeyTest.Fits (kind : Option ValueKind) (test : KeyTest) : Prop :=
  ∀ k, kind = some k → ∀ w ∈ test.values, (w.asKind kind).kind = k

/-- The conditions that say that a key of a kind passes a test; none if nothing can. -/
def KeyTest.conditions? (key : TypeId) (kind : Option ValueKind) : KeyTest → Option (List Condition)
  | .compare c expected => some [.predicate key c (expected.map (Value.asKind kind))]
  | .noneOf values => some ((values.map (Value.asKind kind)).map fun w => .predicate key .ne (some w))
  | .oneOf [] => none
  | .oneOf [w] => some [.predicate key .eq (some (w.asKind kind))]
  | .oneOf values =>
    some [.or ((values.map (Value.asKind kind)).eraseDups.map fun w => .predicate key .eq (some w))]

/-- Does the relation seen from `v` satisfy the constraint? It has no value under an unknown key. -/
def Constraint.holds (schema : Schema) (v : VertexId) (r : Relation) (c : Constraint) : Bool :=
  match schema.named? c.key with
  | none => c.test.passes none none
  | some t => c.test.passes t.keyKind? (r.valueOf t.id v)

namespace Condition

variable {r : Relation} {v : VertexId}

theorem holdsAll_iff {cs : List Condition} :
    holdsAll r v cs = true ↔ ∀ c ∈ cs, evaluate r v c = true := by
  induction cs with
  | nil => simp [holdsAll]
  | cons c cs ih => simp [holdsAll, ih]

theorem holdsAny_iff {cs : List Condition} :
    holdsAny r v cs = true ↔ ∃ c ∈ cs, evaluate r v c = true := by
  induction cs with
  | nil => simp [holdsAny]
  | cons c cs ih => simp [holdsAny, ih]

mutual

theorem eq_of_same : ∀ {a b : Condition}, same a b = true → a = b
  | .and a, .and b, h => congrArg Condition.and (eq_of_sameAll (by simpa [same] using h))
  | .or a, .or b, h => congrArg Condition.or (eq_of_sameAll (by simpa [same] using h))
  | .predicate .., .predicate .., h => by
    simp only [same, Bool.and_eq_true, beq_iff_eq] at h
    rw [h.1.1, h.1.2, h.2]
  | .category .., .category .., h => by simpa [same] using h
  | .visibility .., .visibility .., h => by simpa [same] using h
  | .relationType .., .relationType .., h => by simpa [same] using h
  | .direction .., .direction .., h => by simpa [same] using h
  | .incidence .., .incidence .., h => by simpa [same] using h

theorem eq_of_sameAll : ∀ {as bs : List Condition}, sameAll as bs = true → as = bs
  | [], [], _ => rfl
  | a :: as, b :: bs, h => by
    simp only [sameAll, Bool.and_eq_true] at h
    rw [eq_of_same h.1, eq_of_sameAll h.2]

end

/-- A condition of the normal form: its values are of the kind of their key. -/
inductive Typed (schema : Schema) : Condition → Prop
  | absent (key : TypeId) (c : Comparison) : Typed schema (.predicate key c none)
  | test {t : RelationType} {w : Value} (c : Comparison) :
      t ∈ schema.types → t.keyKind? = some w.kind → Typed schema (.predicate t.id c (some w))
  | oneOf {t : RelationType} {values : List Value} :
      t ∈ schema.types → (∀ w ∈ values, t.keyKind? = some w.kind) →
      Typed schema (.or (values.map fun w => .predicate t.id .eq (some w)))

end Condition

namespace Constraint

variable {schema : Schema} {r : Relation} {v : VertexId}

theorem mem_addNew {conditions new : List Condition} {c : Condition} :
    c ∈ addNew conditions new ↔ c ∈ conditions ∨ c ∈ new := by
  unfold addNew
  induction new generalizing conditions with
  | nil => simp
  | cons d new ih =>
    rw [List.foldl_cons, ih]
    split
    · rename_i hd
      obtain ⟨e, he, hs⟩ := List.contains_iff_exists_mem_beq.mp hd
      obtain rfl := Condition.eq_of_same hs
      grind
    · grind

theorem coerce_eq_ok {name : String} {kind : Option ValueKind} {w w' : Value} :
    coerce name kind w = .ok w' ↔ w' = w.asKind kind ∧ ∀ k, kind = some k → w'.kind = k := by
  unfold coerce Value.asKind
  cases kind with
  | none => simp [eq_comm]
  | some k =>
    cases k <;> cases w <;> simp [Value.kind, eq_comm] <;> grind [Value.kind]

theorem expectedKind_eq {t : RelationType} {kind : Option ValueKind}
    (h : expectedKind t = .ok kind) : kind = t.keyKind? := by
  unfold expectedKind at h
  unfold RelationType.keyKind?
  split at h
  · rename_i he
    split at h
    · rw [if_pos he, Except.ok.inj h]
    · simp at h
  · rename_i he
    rw [if_neg he, Except.ok.inj h]

theorem keyKind?_isSome {t : RelationType} (hs : schema.Sound) (ht : t ∈ schema.types) :
    t.keyKind?.isSome := by
  unfold RelationType.keyKind?
  split
  · rfl
  · rename_i he
    refine (hs.types t ht).dataKind ?_
    unfold RelationType.isEdgeLabel at he
    cases hk : t.kind <;> simp_all

theorem coerceAll_eq_ok {name : String} {kind : Option ValueKind} {values values' : List Value} :
    values.mapM (coerce name kind) = .ok values' ↔
      values' = values.map (Value.asKind kind) ∧
        ∀ k, kind = some k → ∀ w ∈ values, (w.asKind kind).kind = k := by
  induction values generalizing values' with
  | nil =>
    rw [Outcome.mapM_nil_eq_ok]
    simp
  | cons w values ih =>
    rw [Outcome.mapM_cons_eq_ok, List.map_cons]
    simp only [coerce_eq_ok, ih, List.forall_mem_cons]
    constructor
    · rintro ⟨_, _, ⟨rfl, hw⟩, ⟨rfl, hvalues⟩, rfl⟩
      exact ⟨rfl, fun k hk => ⟨hw k hk, hvalues k hk⟩⟩
    · rintro ⟨rfl, hk⟩
      exact ⟨_, _, ⟨rfl, fun k h => (hk k h).1⟩, ⟨rfl, fun k h => (hk k h).2⟩, rfl⟩

/-- A test of a known key is taken if its values are of the kind of the key. -/
theorem conditionsOf_eq_ok {t : RelationType} {kind : Option ValueKind} {test : KeyTest}
    {found : Option (List Condition)} : conditionsOf t kind test = .ok found ↔
      found = test.conditions? t.id kind ∧ test.Fits kind := by
  have hpure (x : Option (List Condition)) : (pure x : Outcome _) = .ok found ↔ found = x := by
    rw [show (pure x : Outcome _) = .ok x from rfl, Except.ok.injEq, eq_comm]
  have hvalues (values : List Value) (make : List Value → Option (List Condition)) :
      (do return make (← values.mapM (coerce t.name kind)) : Outcome _) = .ok found ↔
        found = make (values.map (Value.asKind kind)) ∧
          ∀ k, kind = some k → ∀ w ∈ values, (w.asKind kind).kind = k := by
    rw [Outcome.bind_eq_ok]
    simp only [coerceAll_eq_ok, hpure]
    grind
  have hvalue (w : Value) (make : Value → Option (List Condition)) :
      (do return make (← coerce t.name kind w) : Outcome _) = .ok found ↔
        found = make (w.asKind kind) ∧ ∀ k, kind = some k → (w.asKind kind).kind = k := by
    rw [Outcome.bind_eq_ok]
    simp only [coerce_eq_ok, hpure]
    grind
  unfold conditionsOf KeyTest.Fits
  split
  · simp [KeyTest.conditions?, KeyTest.values, eq_comm]
  · rename_i c w
    simpa [KeyTest.conditions?, KeyTest.values] using hvalue w fun w => some [.predicate t.id c (some w)]
  · rename_i values
    exact hvalues values fun values => some (values.map fun w => .predicate t.id .ne (some w))
  · simp [KeyTest.conditions?, KeyTest.values, eq_comm]
  · rename_i w
    simpa [KeyTest.conditions?, KeyTest.values] using hvalue w fun w => some [.predicate t.id .eq (some w)]
  · rename_i values hne hne'
    have htwo : KeyTest.conditions? t.id kind (.oneOf values) = some [.or
        ((values.map (Value.asKind kind)).eraseDups.map fun w => .predicate t.id .eq (some w))] := by
      unfold KeyTest.conditions?
      split <;> simp_all
    rw [htwo]
    exact hvalues values fun values =>
      some [.or (values.eraseDups.map fun w => .predicate t.id .eq (some w))]

/-- The conditions made of a test say what the test does. -/
theorem conditions?_eq_some {key : TypeId} {kind : Option ValueKind} {test : KeyTest}
    {new : List Condition} (h : test.conditions? key kind = some new) :
    (∀ c ∈ new, c.evaluate r v = true) ↔ test.passes kind (r.valueOf key v) = true := by
  unfold KeyTest.conditions? at h
  split at h <;> cases h
  · simp [Condition.evaluate, KeyTest.passes]
  · simp [Condition.evaluate, KeyTest.passes]
  · simp [Condition.evaluate, KeyTest.passes]
  · simp only [List.forall_mem_singleton, Condition.evaluate, Condition.holdsAny_iff, List.mem_map,
      List.mem_eraseDups, KeyTest.passes, List.any_eq_true]
    constructor
    · rintro ⟨_, ⟨_, ⟨w, hw, rfl⟩, rfl⟩, he⟩
      exact ⟨w, hw, by simpa [Condition.evaluate] using he⟩
    · rintro ⟨w, hw, he⟩
      exact ⟨_, ⟨_, ⟨w, hw, rfl⟩, rfl⟩, by simpa [Condition.evaluate] using he⟩

/-- Where a test has no conditions nothing passes it. -/
theorem conditions?_eq_none {key : TypeId} {kind : Option ValueKind} {test : KeyTest}
    (h : test.conditions? key kind = none) (actual : Option Value) : test.passes kind actual = false := by
  unfold KeyTest.conditions? at h
  split at h <;> cases h
  rfl

/-- The values in the conditions made of a test are of the kind of the key. -/
theorem typed_conditions? (hs : schema.Sound) {t : RelationType} (ht : t ∈ schema.types) {test : KeyTest}
    (hfits : test.Fits t.keyKind?) {new : List Condition}
    (h : test.conditions? t.id t.keyKind? = some new) : ∀ c ∈ new, c.Typed schema := by
  obtain ⟨k, hk⟩ := Option.isSome_iff_exists.mp (keyKind?_isSome hs ht)
  have hkind (w : Value) (hw : w ∈ test.values) : t.keyKind? = some (w.asKind t.keyKind?).kind := by
    rw [hfits k hk w hw, hk]
  unfold KeyTest.conditions? at h
  split at h <;> cases h
  · rename_i c expected
    rw [List.forall_mem_singleton]
    cases expected with
    | none => exact .absent t.id c
    | some w => exact .test c ht (hkind w (by simp [KeyTest.values]))
  · rename_i values
    intro c hc
    obtain ⟨_, htaken, rfl⟩ := List.mem_map.mp hc
    obtain ⟨w, hw, rfl⟩ := List.mem_map.mp htaken
    exact .test .ne ht (hkind w hw)
  · rename_i w
    rw [List.forall_mem_singleton]
    exact .test .eq ht (hkind w (by simp [KeyTest.values]))
  · rw [List.forall_mem_singleton]
    refine .oneOf ht fun _ htaken => ?_
    obtain ⟨w, hw, rfl⟩ := List.mem_map.mp (List.mem_eraseDups.mp htaken)
    exact hkind w hw

theorem holdsOfUnknown_eq (test : KeyTest) : holdsOfUnknown test = test.passes none none := by
  cases test with
  | compare c expected => cases c <;> cases expected <;> rfl
  | oneOf values => simp [holdsOfUnknown, KeyTest.passes, Comparison.evaluate, Comparison.equal]
  | noneOf values => simp [holdsOfUnknown, KeyTest.passes, Comparison.evaluate, Comparison.equal]

theorem normalizeFrom_some {conditions out : List Condition} {constraints : List Constraint}
    (h : normalizeFrom schema conditions constraints = .ok (some out)) :
    (∀ c ∈ out, c.evaluate r v = true) ↔
      (∀ c ∈ conditions, c.evaluate r v = true) ∧ ∀ c ∈ constraints, c.holds schema v r = true := by
  induction constraints generalizing conditions with
  | nil =>
    obtain rfl := Option.some.inj (Except.ok.inj h)
    simp
  | cons c constraints ih =>
    unfold normalizeFrom at h
    split at h
    · rename_i hn
      split at h
      · rename_i hu
        rw [holdsOfUnknown_eq] at hu
        rw [ih h]
        simp [holds, hn, hu]
      · simp at h
    · rename_i t hn
      obtain ⟨kind, hkind, h⟩ := Outcome.bind_eq_ok.mp h
      obtain rfl := expectedKind_eq hkind
      obtain ⟨found, hfound, h⟩ := Outcome.bind_eq_ok.mp h
      cases found with
      | none => simp [pure, Except.pure] at h
      | some new =>
        have hc : c.holds schema v r = c.test.passes t.keyKind? (r.valueOf t.id v) := by
          simp [holds, hn]
        rw [ih h, List.forall_mem_cons, hc, ← conditions?_eq_some (conditionsOf_eq_ok.mp hfound).1.symm]
        simp only [mem_addNew, or_imp, forall_and, and_assoc]

theorem normalizeFrom_typed (hs : schema.Sound) {conditions out : List Condition}
    {constraints : List Constraint}
    (h : normalizeFrom schema conditions constraints = .ok (some out))
    (htyped : ∀ c ∈ conditions, c.Typed schema) : ∀ c ∈ out, c.Typed schema := by
  induction constraints generalizing conditions with
  | nil =>
    obtain rfl := Option.some.inj (Except.ok.inj h)
    exact htyped
  | cons c constraints ih =>
    unfold normalizeFrom at h
    split at h
    · split at h
      · exact ih h htyped
      · simp at h
    · rename_i t hn
      obtain ⟨kind, hkind, h⟩ := Outcome.bind_eq_ok.mp h
      obtain rfl := expectedKind_eq hkind
      obtain ⟨found, hfound, h⟩ := Outcome.bind_eq_ok.mp h
      cases found with
      | none => simp [pure, Except.pure] at h
      | some new =>
        obtain ⟨hnew, hfits⟩ := conditionsOf_eq_ok.mp hfound
        refine ih h fun c hc => ?_
        rcases mem_addNew.mp hc with hc | hc
        · exact htyped c hc
        · exact typed_conditions? hs (Schema.mem_of_named hn) hfits hnew.symm c hc

theorem normalizeFrom_none {conditions : List Condition} {constraints : List Constraint}
    (h : normalizeFrom schema conditions constraints = .ok none) (v : VertexId) (r : Relation) :
    ∃ c ∈ constraints, c.holds schema v r = false := by
  induction constraints generalizing conditions with
  | nil => simp [normalizeFrom] at h
  | cons c constraints ih =>
    have later {conditions : List Condition}
        (h : normalizeFrom schema conditions constraints = .ok none) :
        ∃ d ∈ c :: constraints, d.holds schema v r = false := by
      obtain ⟨d, hd, hf⟩ := ih h
      exact ⟨d, List.mem_cons_of_mem _ hd, hf⟩
    unfold normalizeFrom at h
    split at h
    · rename_i hn
      split at h
      · exact later h
      · rename_i hu
        rw [holdsOfUnknown_eq] at hu
        exact ⟨c, List.mem_cons_self, by simpa [holds, hn] using hu⟩
    · rename_i t hn
      obtain ⟨kind, hkind, h⟩ := Outcome.bind_eq_ok.mp h
      obtain rfl := expectedKind_eq hkind
      obtain ⟨found, hfound, h⟩ := Outcome.bind_eq_ok.mp h
      cases found with
      | none => exact ⟨c, List.mem_cons_self, by simp [holds, hn, conditions?_eq_none (conditionsOf_eq_ok.mp hfound).1.symm]⟩
      | some new => exact later h

/-- The normal form holds of the relations that satisfy the constraints. -/
theorem normalize_some {constraints : List Constraint} {out : List Condition}
    (h : normalize schema constraints = .ok (some out)) :
    (∀ c ∈ out, c.evaluate r v = true) ↔ ∀ c ∈ constraints, c.holds schema v r = true := by
  rw [normalizeFrom_some h]
  simp

theorem normalize_typed (hs : schema.Sound) {constraints : List Constraint} {out : List Condition}
    (h : normalize schema constraints = .ok (some out)) : ∀ c ∈ out, c.Typed schema :=
  normalizeFrom_typed hs h (by simp)

end Constraint

end RowGraph
