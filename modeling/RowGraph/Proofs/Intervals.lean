import RowGraph.Proofs.Conditions
import RowGraph.Proofs.KeyOrder
import RowGraph.Proofs.Lookup
import RowGraph.Constraint.Absorption

/-!
# Intervals and the conditions they stand for

Intersecting intervals intersects the sets of their values.  Of a relation whose values are of the
kinds that the conditions compare them with, the intervals made of conditions hold all values wherever
the conditions hold, and where they are fitted they say nothing less.  The values in conditions of the
normal form are of the kinds that their keys declare, and so are those of the relations that are stored.

* `contains_intersect`: the intersection holds what both hold.
* `inside_of_satisfied`: conditions imply their intervals.
* `satisfied_of_inside`: fitted intervals imply the conditions.
* `ofConditions_faithful`: what intervals say of the conditions that they are made of.
-/

namespace RowGraph

/-! ## Bounds and intervals -/

namespace Bound

variable {a b : Bound} {x y w : Value}

theorem isLE_of_allowsAbove (ha : a.value? = some x) (h : a.allowsAbove w = true) :
    (compare x w).isLE := by
  cases a with
  | unbounded => simp [value?] at ha
  | included v =>
    obtain rfl := Option.some.inj ha
    exact h
  | excluded v =>
    obtain rfl := Option.some.inj ha
    rw [beq_iff_eq.mp h]
    rfl

theorem allowsAbove_of_lt (hb : b.value? = some y) (h : compare y w = .lt) :
    b.allowsAbove w = true := by
  cases b with
  | unbounded => rfl
  | included v =>
    obtain rfl := Option.some.inj hb
    simp [allowsAbove, h]
  | excluded v =>
    obtain rfl := Option.some.inj hb
    simp [allowsAbove, h]

theorem isLE_of_allowsBelow (ha : a.value? = some x) (h : a.allowsBelow w = true) :
    (compare w x).isLE := by
  cases a with
  | unbounded => simp [value?] at ha
  | included v =>
    obtain rfl := Option.some.inj ha
    exact h
  | excluded v =>
    obtain rfl := Option.some.inj ha
    rw [beq_iff_eq.mp h]
    rfl

theorem allowsBelow_of_lt (hb : b.value? = some y) (h : compare w y = .lt) :
    b.allowsBelow w = true := by
  cases b with
  | unbounded => rfl
  | included v =>
    obtain rfl := Option.some.inj hb
    simp [allowsBelow, h]
  | excluded v =>
    obtain rfl := Option.some.inj hb
    simp [allowsBelow, h]

theorem allowsAbove_stricter (ha : a.value? = some x) (hb : b.value? = some x) :
    (stricter a b).allowsAbove w = true ↔ a.allowsAbove w = true ∧ b.allowsAbove w = true := by
  have hle : compare x w = .lt → (compare x w).isLE := fun h => by rw [h]; rfl
  cases a <;> cases b <;> simp_all [value?, stricter, allowsAbove]

theorem allowsBelow_stricter (ha : a.value? = some x) (hb : b.value? = some x) :
    (stricter a b).allowsBelow w = true ↔ a.allowsBelow w = true ∧ b.allowsBelow w = true := by
  have hle : compare w x = .lt → (compare w x).isLE := fun h => by rw [h]; rfl
  cases a <;> cases b <;> simp_all [value?, stricter, allowsBelow]

theorem allowsAbove_tighterLower (a b : Bound) (w : Value) :
    (a.tighterLower b).allowsAbove w = true ↔ a.allowsAbove w = true ∧ b.allowsAbove w = true := by
  unfold tighterLower
  split
  · rename_i h
    cases a <;> simp_all [value?, allowsAbove]
  · rename_i h
    cases b <;> simp_all [value?, allowsAbove]
  · rename_i x y hx hy
    cases hc : compare x y with
    | gt =>
      refine (and_iff_left_of_imp fun h => allowsAbove_of_lt hy ?_).symm
      exact Std.TransCmp.lt_of_lt_of_isLE (Std.OrientedCmp.gt_iff_lt.mp hc) (isLE_of_allowsAbove hx h)
    | lt =>
      refine (and_iff_right_of_imp fun h => allowsAbove_of_lt hx ?_).symm
      exact Std.TransCmp.lt_of_lt_of_isLE hc (isLE_of_allowsAbove hy h)
    | eq =>
      obtain rfl := Std.LawfulEqCmp.eq_of_compare hc
      exact allowsAbove_stricter hx hy

theorem allowsBelow_tighterUpper (a b : Bound) (w : Value) :
    (a.tighterUpper b).allowsBelow w = true ↔ a.allowsBelow w = true ∧ b.allowsBelow w = true := by
  unfold tighterUpper
  split
  · rename_i h
    cases a <;> simp_all [value?, allowsBelow]
  · rename_i h
    cases b <;> simp_all [value?, allowsBelow]
  · rename_i x y hx hy
    cases hc : compare x y with
    | lt =>
      refine (and_iff_left_of_imp fun h => allowsBelow_of_lt hy ?_).symm
      exact Std.TransCmp.lt_of_isLE_of_lt (isLE_of_allowsBelow hx h) hc
    | gt =>
      refine (and_iff_right_of_imp fun h => allowsBelow_of_lt hx ?_).symm
      exact Std.TransCmp.lt_of_isLE_of_lt (isLE_of_allowsBelow hy h) (Std.OrientedCmp.gt_iff_lt.mp hc)
    | eq =>
      obtain rfl := Std.LawfulEqCmp.eq_of_compare hc
      exact allowsBelow_stricter hx hy

end Bound

namespace Interval

/-- Does a value that may be absent lie in the interval? -/
def includes (i : Interval) : Option Value → Bool
  | some w => i.contains w
  | none => false

theorem includes_iff_exists {i : Interval} {x : Option Value} :
    i.includes x = true ↔ ∃ w, x = some w ∧ i.contains w = true := by
  cases x <;> simp [includes]

theorem contains_between (lower upper : Bound) (w : Value) :
    (between lower upper).contains w = true ↔
      lower.allowsAbove w = true ∧ upper.allowsBelow w = true := by
  unfold between
  split
  · rename_i a b
    split
    · rename_i hab
      subst hab
      simp only [point, contains, List.contains_iff_mem, List.mem_singleton, Bound.allowsAbove,
        Bound.allowsBelow]
      constructor
      · rintro rfl
        simp
      · rintro ⟨h, h'⟩
        exact Std.LawfulEqCmp.eq_of_compare (Std.OrientedCmp.isLE_antisymm h' h)
    · simp [contains]
  · simp [contains]

/-- The intersection holds what both intervals hold. -/
theorem contains_intersect (i j : Interval) (w : Value) :
    (i.intersect j).contains w = true ↔ i.contains w = true ∧ j.contains w = true := by
  cases i with
  | points a => simp [intersect, contains]
  | range l u =>
    cases j with
    | points b =>
      simp [intersect, contains, and_comm]
    | range l' u' =>
      rw [intersect, contains_between, Bound.allowsAbove_tighterLower,
        Bound.allowsBelow_tighterUpper]
      simp only [contains, Bool.and_eq_true]
      grind

theorem includes_intersect (i j : Interval) (x : Option Value) :
    (i.intersect j).includes x = true ↔ i.includes x = true ∧ j.includes x = true := by
  cases x with
  | none => simp [includes]
  | some w => exact contains_intersect i j w

/-- A plainly empty interval holds nothing. -/
theorem not_contains_of_isEmpty {i : Interval} (h : i.isEmpty = true) (w : Value) :
    i.contains w = false := by
  cases i with
  | points values => simp_all [isEmpty, contains]
  | range lower upper =>
    cases hc : (range lower upper).contains w with
    | false => rfl
    | true =>
      simp only [contains, Bool.and_eq_true] at hc
      simp only [isEmpty] at h
      split at h
      · rename_i x y hx hy
        have hle : (compare x y).isLE := Std.TransCmp.isLE_trans
          (Bound.isLE_of_allowsAbove hx hc.1) (Bound.isLE_of_allowsBelow hy hc.2)
        split at h
        · rw [beq_iff_eq.mp h] at hle
          cases hle
        · rename_i hne
          obtain rfl := Std.LawfulEqCmp.eq_of_compare (Std.OrientedCmp.isLE_antisymm hle h)
          have hlow := Bound.isLE_of_allowsAbove hx hc.1
          have hupp := Bound.isLE_of_allowsBelow hy hc.2
          obtain rfl := Std.LawfulEqCmp.eq_of_compare (Std.OrientedCmp.isLE_antisymm hlow hupp)
          cases lower <;> cases upper <;> simp_all [Bound.value?, Bound.allowsAbove, Bound.allowsBelow]
      · cases h

theorem mem_dropRepeats {l : List Value} {w : Value} : w ∈ dropRepeats l ↔ w ∈ l := by
  induction l with
  | nil => simp [dropRepeats]
  | cons v rest ih =>
    unfold dropRepeats
    split
    · rename_i h
      rw [h] at ih
      simp [← ih]
    · rename_i u tail h
      rw [h] at ih
      split
      · rename_i he
        subst he
        rw [ih, List.mem_cons, ← ih]
        simp
      · rw [List.mem_cons, ih, List.mem_cons]

theorem contains_ofValues (values : List Value) (w : Value) :
    (ofValues values).contains w = true ↔ w ∈ values := by
  simp [ofValues, contains, mem_dropRepeats]

end Interval

/-! ## Values that are compared -/

namespace Condition

mutual

/-- The values that a condition compares with, each with its key. -/
def comparands : Condition → List (TypeId × Value)
  | and cs => comparandsAll cs
  | or cs => comparandsAll cs
  | predicate key _ (some x) => [(key, x)]
  | _ => []

/-- The values that conditions compare with. -/
def comparandsAll : List Condition → List (TypeId × Value)
  | [] => []
  | c :: cs => comparands c ++ comparandsAll cs

end

theorem mem_comparandsAll {cs : List Condition} {p : TypeId × Value} :
    p ∈ comparandsAll cs ↔ ∃ c ∈ cs, p ∈ c.comparands := by
  induction cs with
  | nil => simp [comparandsAll]
  | cons c cs ih => simp [comparandsAll, ih]

end Condition

namespace Relation

/-- Seen from `v`, the relation has no value but of the kind that the key declares. -/
def KindsFit (schema : Schema) (v : VertexId) (r : Relation) : Prop :=
  ∀ t ∈ schema.types, ∀ w, r.valueOf t.id v = some w → t.keyKind? = some w.kind

/-- Seen from `v`, the relation has no value but of the kind that the condition compares it with. -/
def Comparable (v : VertexId) (c : Condition) (r : Relation) : Prop :=
  ∀ p ∈ c.comparands, ∀ w, r.valueOf p.1 v = some w → w.kind = p.2.kind

instance (v : VertexId) (c : Condition) (r : Relation) : Decidable (r.Comparable v c) :=
  decidable_of_iff
    (∀ p ∈ c.comparands, (r.valueOf p.1 v).all (fun w => decide (w.kind = p.2.kind)) = true)
    (by simp [Comparable, Option.all_eq_true])

/-- What fits its type can be compared with what is of the kind of its key. -/
theorem KindsFit.comparable {schema : Schema} {v : VertexId} {r : Relation} (hr : r.KindsFit schema v)
    {c : Condition} (hc : c.Typed schema) : r.Comparable v c := by
  intro p hp w hw
  cases hc with
  | absent key c => simp [Condition.comparands] at hp
  | @test t x c ht hk =>
    obtain rfl := List.mem_singleton.mp hp
    exact Option.some.inj ((hr t ht w hw).symm.trans hk)
  | @oneOf t values ht hk =>
    obtain ⟨c, hc, hp⟩ := Condition.mem_comparandsAll.mp hp
    obtain ⟨x, hx, rfl⟩ := List.mem_map.mp hc
    obtain rfl := List.mem_singleton.mp hp
    exact Option.some.inj ((hr t ht w hw).symm.trans (hk x hx))

end Relation

theorem Value.compare?_eq {a b : Value} (h : a.kind = b.kind) :
    Value.compare? a b = some (compare a b) := by
  cases a <;> cases b <;> first | rfl | cases h

/-- Equal is, for a predicate, what is the same value of the kind. -/
theorem Comparison.equal_iff {w x : Value} (h : w.kind = x.kind) :
    Comparison.equal (some w) (some x) = true ↔ w = x := by
  have heq : compare w x = .eq ↔ w = x := Std.LawfulEqCmp.compare_eq_iff_eq
  simp [Comparison.equal, Value.compare?_eq h, heq]

/-! ## Absorbed conditions -/

namespace KeyIntervals

variable {schema : Schema} {v : VertexId} {r : Relation}

/-- Every interval holds the value that the relation has under its key. -/
def Inside (k : KeyIntervals) (v : VertexId) (r : Relation) : Prop :=
  ∀ key i, k.intervals.get? key = some i → i.includes (r.valueOf key v) = true

theorem contains_ofComparison {c : Comparison} {x w : Value} {i : Interval}
    (h : ofComparison? c x = some i) (hk : w.kind = x.kind) :
    i.contains w = true ↔ c.evaluate (some w) (some x) = true := by
  have hge : (compare w x).isGE = (compare x w).isLE := Std.OrientedCmp.isGE_eq_isLE
  have hgt : compare w x = .gt ↔ compare x w = .lt := Std.OrientedCmp.gt_iff_lt
  cases c <;> simp only [ofComparison?, Option.some.injEq, reduceCtorEq] at h <;> subst h
  case eq =>
    simp [Interval.point, Interval.contains, Comparison.evaluate, Comparison.equal_iff hk]
  case lt =>
    simp [Interval.contains_between, Bound.allowsAbove, Bound.allowsBelow, Comparison.evaluate,
      Comparison.accepts, Value.compare?_eq hk]
  case le =>
    simp only [Interval.contains_between, Bound.allowsAbove, Bound.allowsBelow, Comparison.evaluate,
      Comparison.accepts, Value.compare?_eq hk]
    cases compare w x <;> simp
  case gt =>
    simp [Interval.contains_between, Bound.allowsAbove, Bound.allowsBelow, Comparison.evaluate,
      Comparison.accepts, Value.compare?_eq hk, hgt]
  case ge =>
    simp only [Interval.contains_between, Bound.allowsAbove, Bound.allowsBelow, Comparison.evaluate,
      Comparison.accepts, Value.compare?_eq hk, ← hge]
    cases compare w x <;> simp

theorem evaluate_none {c : Comparison} {x : Value} {i : Interval} (h : ofComparison? c x = some i) :
    c.evaluate none (some x) = false := by
  cases c <;> first | rfl | simp [ofComparison?] at h

/-- Alternatives that are taken for the values of a key are equalities of this key with these values. -/
theorem eq_of_equalityPoints? {alternatives : List Condition} {key : TypeId} {values : List Value}
    (h : Condition.equalityPoints? alternatives = some (key, values)) :
    alternatives = values.map fun x => .predicate key .eq (some x) := by
  fun_induction Condition.equalityPoints? alternatives generalizing key values with
  | case1 => cases h
  | case2 key' x =>
    obtain ⟨rfl, rfl⟩ := Prod.mk.inj (Option.some.inj h)
    rfl
  | case3 x rest _ key' found hfound ih =>
    obtain ⟨rfl, rfl⟩ := Prod.mk.inj (Option.some.inj h)
    rw [ih hfound, List.map_cons]
  | case4 => cases h
  | case5 => cases h
  | case6 => cases h

/-- A relation has one of the values just if one of the equalities with them holds. -/
theorem includes_ofValues {key : TypeId} {values : List Value}
    (hr : r.Comparable v (.or (values.map fun x => .predicate key .eq (some x)))) :
    (Interval.ofValues values).includes (r.valueOf key v) = true ↔
      (Condition.or (values.map fun x => .predicate key .eq (some x))).evaluate r v = true := by
  simp only [Condition.evaluate, Condition.holdsAny_iff, List.mem_map]
  cases hval : r.valueOf key v with
  | none =>
    simp [Interval.includes, Condition.evaluate, Comparison.evaluate, Comparison.equal, hval]
  | some w =>
    have hkind (x : Value) (hx : x ∈ values) : w.kind = x.kind := by
      refine hr (key, x) ?_ w hval
      exact Condition.mem_comparandsAll.mpr ⟨_, List.mem_map.mpr ⟨x, hx, rfl⟩, List.mem_singleton_self _⟩
    simp only [Interval.includes, Interval.contains_ofValues]
    constructor
    · intro hw
      refine ⟨_, ⟨w, hw, rfl⟩, ?_⟩
      rw [Condition.evaluate, hval]
      exact (Comparison.equal_iff rfl).mpr rfl
    · rintro ⟨_, ⟨x, hx, rfl⟩, he⟩
      rw [Condition.evaluate, hval] at he
      exact (Comparison.equal_iff (hkind x hx)).mp he ▸ hx

/-- The interval of a condition holds the values that satisfy the condition. -/
theorem includes_iff {c : Condition} (hr : r.Comparable v c) {key : TypeId} {i : Interval}
    (h : ofCondition? c = some (key, i)) :
    i.includes (r.valueOf key v) = true ↔ c.evaluate r v = true := by
  unfold ofCondition? at h
  split at h
  · rename_i alternatives
    obtain ⟨⟨key', values⟩, hp, he⟩ := Option.map_eq_some_iff.mp h
    obtain ⟨rfl, rfl⟩ := Prod.mk.inj he
    obtain rfl := eq_of_equalityPoints? hp
    exact includes_ofValues hr
  · rename_i key' c x
    obtain ⟨j, hj, he⟩ := Option.map_eq_some_iff.mp h
    obtain ⟨rfl, rfl⟩ := Prod.mk.inj he
    simp only [Condition.evaluate]
    cases hval : r.valueOf key' v with
    | none => simp [Interval.includes, evaluate_none hj]
    | some w =>
      exact contains_ofComparison hj (hr (key', x) (List.mem_singleton_self _) w hval)
  · cases h

theorem inside_narrow (k : KeyIntervals) (key : TypeId) (i : Interval) :
    (k.narrow key i).Inside v r ↔ k.Inside v r ∧ i.includes (r.valueOf key v) = true := by
  unfold Inside narrow
  simp only [SortedMap.get?_put]
  cases hp : k.intervals.get? key with
  | none =>
    constructor
    · intro h
      refine ⟨fun key' j hj => h key' j ?_, h key i (by simp)⟩
      rw [if_neg (by rintro rfl; simp [hp] at hj)]
      exact hj
    · rintro ⟨h, hi⟩ key' j hj
      split at hj
      · rename_i he
        obtain rfl := Option.some.inj hj
        rw [he]
        exact hi
      · exact h key' j hj
  | some present =>
    constructor
    · intro h
      have hkey := h key _ (if_pos rfl)
      rw [Interval.includes_intersect] at hkey
      refine ⟨fun key' j hj => ?_, hkey.2⟩
      by_cases he : key' = key
      · subst he
        obtain rfl := Option.some.inj (hp.symm.trans hj)
        exact hkey.1
      · exact h key' j (by rw [if_neg he]; exact hj)
    · rintro ⟨h, hi⟩ key' j hj
      split at hj
      · rename_i he
        obtain rfl := Option.some.inj hj
        rw [he, Interval.includes_intersect]
        exact ⟨h key present hp, hi⟩
      · exact h key' j hj

/-- Taking a condition in leaves the relations that satisfy it; if nothing is lost it leaves no
others. -/
theorem inside_absorb (k : KeyIntervals) {c : Condition} (hr : r.Comparable v c) :
    (k.Inside v r → c.evaluate r v = true → (k.absorb c).Inside v r) ∧
      ((k.absorb c).fitted = true → k.fitted = true ∧
        ((k.absorb c).Inside v r → k.Inside v r ∧ c.evaluate r v = true)) := by
  unfold absorb
  split
  · rename_i key i h
    rw [inside_narrow, includes_iff hr h]
    exact ⟨And.intro, fun hf => ⟨hf, id⟩⟩
  · exact ⟨fun h _ => h, by simp⟩

theorem inside_foldl {conditions : List Condition} (hr : ∀ c ∈ conditions, r.Comparable v c)
    (k : KeyIntervals) :
    (k.Inside v r → (∀ c ∈ conditions, c.evaluate r v = true) →
        (conditions.foldl absorb k).Inside v r) ∧
      ((conditions.foldl absorb k).fitted = true → k.fitted = true ∧
        ((conditions.foldl absorb k).Inside v r →
          k.Inside v r ∧ ∀ c ∈ conditions, c.evaluate r v = true)) := by
  induction conditions generalizing k with
  | nil => exact ⟨fun h _ => h, fun h => ⟨h, fun hi => ⟨hi, by simp⟩⟩⟩
  | cons c conditions ih =>
    obtain ⟨hstep, hstepFit⟩ := inside_absorb k (hr c List.mem_cons_self)
    obtain ⟨hrest, hrestFit⟩ := ih (fun d hd => hr d (List.mem_cons_of_mem _ hd)) (k.absorb c)
    rw [List.foldl_cons]
    constructor
    · intro hi hall
      rw [List.forall_mem_cons] at hall
      exact hrest (hstep hi hall.1) hall.2
    · intro hf
      obtain ⟨hf, hback⟩ := hrestFit hf
      obtain ⟨hf, hback'⟩ := hstepFit hf
      refine ⟨hf, fun hi => ?_⟩
      obtain ⟨hi, hall⟩ := hback hi
      obtain ⟨hi, hc⟩ := hback' hi
      exact ⟨hi, List.forall_mem_cons.mpr ⟨hc, hall⟩⟩

/-- Does the relation seen from `v` lead to the vertex that is asked for, if one is? -/
def leadsTo (adjacent : Option Adjacent) (v : VertexId) (r : Relation) : Prop :=
  ∀ a, adjacent = some a → r.otherVertex? v = some a.vertex

theorem includes_adjacent (w : VertexId) :
    (Interval.point (.vertex w)).includes (r.valueOf ImplicitKey.adjacent.typeId v) = true ↔
      r.otherVertex? v = some w := by
  have hval : r.valueOf ImplicitKey.adjacent.typeId v = (r.otherVertex? v).map .vertex := rfl
  rw [hval]
  cases r.otherVertex? v <;> simp [Interval.includes, Interval.point, Interval.contains]

section

variable {conditions : List Condition} {adjacent : Option Adjacent}

/-- Conditions imply the intervals that are made of them. -/
theorem inside_of_satisfied (hr : ∀ c ∈ conditions, r.Comparable v c)
    (h : ∀ c ∈ conditions, c.evaluate r v = true) (ha : leadsTo adjacent v r) :
    (ofConditions conditions adjacent).Inside v r := by
  have hi : (conditions.foldl absorb ⟨.empty, true⟩).Inside v r :=
    (inside_foldl hr _).1 (fun key i hk => by simp at hk) h
  unfold ofConditions absorbAdjacent
  split
  · exact hi
  · rename_i w
    rw [inside_narrow, includes_adjacent]
    exact ⟨hi, ha _ rfl⟩
  · exact hi

/-- Fitted intervals imply the conditions that they are made of. -/
theorem satisfied_of_inside (hr : ∀ c ∈ conditions, r.Comparable v c)
    (hf : (ofConditions conditions adjacent).fitted = true)
    (h : (ofConditions conditions adjacent).Inside v r) :
    (∀ c ∈ conditions, c.evaluate r v = true) ∧ leadsTo adjacent v r := by
  obtain ⟨-, hfold⟩ := inside_foldl hr ⟨.empty, true⟩
  unfold ofConditions absorbAdjacent at hf h
  split at hf
  · exact ⟨((hfold hf).2 h).2, by simp [leadsTo]⟩
  · rename_i w
    simp only [inside_narrow, includes_adjacent] at h
    refine ⟨((hfold hf).2 h.1).2, fun a ha => ?_⟩
    obtain rfl := Option.some.inj ha
    exact h.2
  · simp at hf

/-- Conditions of the normal form imply their intervals for what fits its type. -/
theorem inside_ofConditions (hr : r.KindsFit schema v) (hc : ∀ c ∈ conditions, c.Typed schema)
    (h : ∀ c ∈ conditions, c.evaluate r v = true) (ha : leadsTo adjacent v r) :
    (ofConditions conditions adjacent).Inside v r :=
  inside_of_satisfied (fun c hm => hr.comparable (hc c hm)) h ha

/-- Fitted intervals imply the conditions of the normal form for what fits its type. -/
theorem of_inside_of_fitted (hr : r.KindsFit schema v) (hc : ∀ c ∈ conditions, c.Typed schema)
    (hf : (ofConditions conditions adjacent).fitted = true)
    (h : (ofConditions conditions adjacent).Inside v r) :
    (∀ c ∈ conditions, c.evaluate r v = true) ∧ leadsTo adjacent v r :=
  satisfied_of_inside (fun c hm => hr.comparable (hc c hm)) hf h

end

/-- Where some interval is plainly empty no relation is inside. -/
theorem not_inside_of_isUnsatisfiable {k : KeyIntervals} (h : k.isUnsatisfiable = true) :
    ¬ k.Inside v r := by
  unfold isUnsatisfiable at h
  obtain ⟨i, hi, he⟩ := List.any_eq_true.mp h
  obtain ⟨key, hk⟩ := SortedMap.mem_values_iff.mp hi
  intro hin
  have hincl := hin key i hk
  cases hval : r.valueOf key v with
  | none => simp [hval, Interval.includes] at hincl
  | some w => simp [hval, Interval.includes, Interval.not_contains_of_isEmpty he w] at hincl

/-- The intervals that are made of conditions and of an adjacent vertex, for a relation whose values can be
compared with those in the conditions.  If the conditions hold and the relation leads to the vertex, it has
a value in every interval; if the intervals are fitted, a relation that has these values satisfies the conditions
and leads to the vertex; and if some key has no value left, no relation does. -/
theorem ofConditions_faithful {conditions : List Condition} (adjacent : Option Adjacent)
    (hr : ∀ c ∈ conditions, r.Comparable v c) :
    ((∀ c ∈ conditions, c.evaluate r v = true) → leadsTo adjacent v r →
      ∀ key i, (ofConditions conditions adjacent).intervals.get? key = some i →
        ∃ w, r.valueOf key v = some w ∧ i.contains w = true) ∧
    ((ofConditions conditions adjacent).fitted = true →
      (∀ key i, (ofConditions conditions adjacent).intervals.get? key = some i →
        ∃ w, r.valueOf key v = some w ∧ i.contains w = true) →
      (∀ c ∈ conditions, c.evaluate r v = true) ∧ leadsTo adjacent v r) ∧
    ((ofConditions conditions adjacent).isUnsatisfiable = true →
      ¬ ((∀ c ∈ conditions, c.evaluate r v = true) ∧ leadsTo adjacent v r)) := by
  have hinside : (ofConditions conditions adjacent).Inside v r ↔
      ∀ key i, (ofConditions conditions adjacent).intervals.get? key = some i →
        ∃ w, r.valueOf key v = some w ∧ i.contains w = true := by
    simp only [Inside, Interval.includes_iff_exists]
  refine ⟨?_, ?_, ?_⟩
  · intro hall ha
    exact hinside.mp (inside_of_satisfied hr hall ha)
  · intro hf h
    exact satisfied_of_inside hr hf (hinside.mpr h)
  · rintro hempty ⟨hall, ha⟩
    exact not_inside_of_isUnsatisfiable hempty (inside_of_satisfied hr hall ha)

/-- Key 1024 holds three at least, and four or nine. -/
def fourOrNine : List Condition :=
  [.predicate ⟨1024⟩ .ge (some (.int 3)),
    .or [.predicate ⟨1024⟩ .eq (some (.int 4)), .predicate ⟨1024⟩ .eq (some (.int 9))]]

/-- An edge from vertex 1 to vertex 2 that holds four under key 1024. -/
def fourth : Relation :=
  { Relation.edge ⟨7⟩ ⟨1025⟩ ⟨1⟩ ⟨2⟩ with properties := .ofList [(⟨1024⟩, .int 4)] }

/-- The intervals are the points four and nine and the vertex, and the edge is found by them. -/
theorem ofConditions_faithful_fourth :
    (∀ c ∈ fourOrNine, fourth.Comparable ⟨1⟩ c) ∧
      (ofConditions fourOrNine (some (.persisted ⟨2⟩))).fitted = true ∧
      (ofConditions fourOrNine (some (.persisted ⟨2⟩))).intervals.get? ⟨1024⟩ =
        some (.points [.int 4, .int 9]) ∧
      (∃ w, fourth.valueOf ⟨1024⟩ ⟨1⟩ = some w ∧ (Interval.points [.int 4, .int 9]).contains w = true) ∧
      ∀ c ∈ fourOrNine, c.evaluate fourth ⟨1⟩ = true := by
  have hr : ∀ c ∈ fourOrNine, fourth.Comparable ⟨1⟩ c := by decide +kernel
  obtain ⟨hinside, hback, -⟩ := ofConditions_faithful (some (.persisted ⟨2⟩)) hr
  have hall : ∀ c ∈ fourOrNine, c.evaluate fourth ⟨1⟩ = true := by decide +kernel
  have hlead : leadsTo (some (.persisted ⟨2⟩)) ⟨1⟩ fourth := by
    rintro a ha
    obtain rfl := Option.some.inj ha
    decide +kernel
  have hf : (ofConditions fourOrNine (some (.persisted ⟨2⟩))).fitted = true := by decide +kernel
  have hsorted : Interval.ofValues [.int 4, .int 9] = .points [.int 4, .int 9] := by
    rw [Interval.ofValues, List.mergeSort_of_pairwise (by decide)]
    rfl
  have hget : (ofConditions fourOrNine (some (.persisted ⟨2⟩))).intervals.get? ⟨1024⟩ =
      some (.points [.int 4, .int 9]) := by
    show some ((Interval.range (.included (.int 3)) .unbounded).intersect (Interval.ofValues [.int 4, .int 9])) = _
    rw [hsorted]
    rfl
  exact ⟨hr, hf, hget, hinside hall hlead _ _ hget, (hback hf (hinside hall hlead)).1⟩

end KeyIntervals

end RowGraph
