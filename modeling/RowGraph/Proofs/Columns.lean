import RowGraph.Proofs.KeyOrder
import RowGraph.Proofs.BuiltSchema
import RowGraph.Plan.Candidate
import RowGraph.Row.Layout

/-!
# Columns and the slices that hold them

A column is the stem of its layout and end, the values of its components and a tail.  A slice over
leading values and a range of the next one holds exactly the columns whose components are these
values and lie in the range: the bytes say the same as the values.

* `column_eq`: the column of a relation holds the values of the extended sort key.
* `contains_columnAt`: which columns a slice over a layout at one end holds.
-/

namespace RowGraph.Layout

open Bytes (nextAfter)

/-! ## Bounds as columns -/

/-- Is the value between two bounds, for a range of columns? Absent values come after all others, so
that they are taken in by an open upper end. -/
def takes (lower upper : Bound) : Option Value → Bool
  | some v => lower.allowsAbove v && upper.allowsBelow v
  | none => upper == .unbounded

/-- Is the value at or after the bound that comes first in the order of columns? -/
def passesFirst (order : SortOrder) (b : Bound) (y : Option Value) : Prop :=
  match b with
  | .unbounded => True
  | .included v => (order.apply (Value.cmpAbsentLast (some v) y)).isLE
  | .excluded v => order.apply (Value.cmpAbsentLast (some v) y) = .lt

/-- Is the value at or before the bound that comes last in the order of columns? -/
def passesLast (order : SortOrder) (b : Bound) (y : Option Value) : Prop :=
  match b with
  | .unbounded => True
  | .included v => (order.apply (Value.cmpAbsentLast y (some v))).isLE
  | .excluded v => order.apply (Value.cmpAbsentLast y (some v)) = .lt

theorem successor_eq {p e : Bytes} : Key.successor p = .ok e ↔ nextAfter p = some e := by
  unfold Key.successor
  cases nextAfter p <;> simp

theorem apply_self (order : SortOrder) (y : Option Value) :
    order.apply (Value.cmpAbsentLast y y) = .eq := by
  rw [Key.cmpAbsentLast_self]
  cases order <;> rfl

theorem apply_ne_eq (order : SortOrder) {x y : Option Value} (h : x ≠ y) :
    order.apply (Value.cmpAbsentLast x y) ≠ .eq :=
  (Key.parts_encode order h).ne_eq

section

variable {stem s : Bytes} {order : SortOrder} {b : Bound}

theorem prefix_encode (v y : Option Value) (rest : Bytes) :
    stem ++ Key.encode v order <+: stem ++ (Key.encode y order ++ rest) ↔ v = y := by
  have h := Key.encode_prefix_iff order v y [] rest
  rw [List.append_nil] at h
  rw [List.prefix_append_right_inj, h]
  simp

theorem compare_stem {v y : Option Value} (h : v ≠ y) (rest : Bytes) :
    compare (stem ++ Key.encode v order) (stem ++ (Key.encode y order ++ rest))
      = order.apply (Value.cmpAbsentLast v y) := by
  have hc := Key.compare_encode order h [] rest
  rw [List.append_nil] at hc
  rw [Bytes.compare_append_left, hc]

theorem compare_stem' {v y : Option Value} (h : y ≠ v) (rest : Bytes) :
    compare (stem ++ (Key.encode y order ++ rest)) (stem ++ Key.encode v order)
      = order.apply (Value.cmpAbsentLast y v) := by
  have hc := Key.compare_encode order h rest []
  rw [List.append_nil] at hc
  rw [Bytes.compare_append_left, hc]

theorem lowerColumn_le (h : lowerColumn stem order b = .ok s) (y : Option Value) (rest : Bytes) :
    (compare s (stem ++ (Key.encode y order ++ rest))).isLE ↔ passesFirst order b y := by
  cases b with
  | unbounded =>
    obtain rfl := Except.ok.inj h
    simp [passesFirst, Bytes.isLE_of_starts (List.prefix_append _ _)]
  | included v =>
    obtain rfl := Except.ok.inj h
    by_cases hv : some v = y
    · have hp : stem ++ Key.encode (some v) order <+: stem ++ (Key.encode y order ++ rest) :=
        (prefix_encode (some v) y rest).mpr hv
      subst hv
      simp [passesFirst, Bytes.isLE_of_starts hp, apply_self]
    · rw [compare_stem hv]
      rfl
  | excluded v =>
    rw [Bytes.nextAfter_le_iff (successor_eq.mp h), prefix_encode]
    by_cases hv : some v = y
    · simp [passesFirst, hv, apply_self]
    · rw [compare_stem hv]
      have hne := apply_ne_eq order hv
      simp only [passesFirst, hv, not_false_eq_true, and_true]
      revert hne
      cases order.apply (Value.cmpAbsentLast (some v) y) <;> simp

theorem before_upperColumn (h : upperColumn stem order b = .ok s) (y : Option Value)
    (rest : Bytes) :
    compare (stem ++ (Key.encode y order ++ rest)) s = .lt ↔ passesLast order b y := by
  cases b with
  | unbounded =>
    simp [passesLast, Bytes.lt_nextAfter (successor_eq.mp h) (List.prefix_append _ _)]
  | included v =>
    rw [Bytes.lt_nextAfter_iff (successor_eq.mp h), prefix_encode]
    by_cases hv : y = some v
    · simp [passesLast, hv, apply_self]
    · rw [compare_stem' hv]
      have hne := apply_ne_eq order hv
      simp only [passesLast, Ne.symm hv, or_false]
      revert hne
      cases order.apply (Value.cmpAbsentLast y (some v)) <;> simp
  | excluded v =>
    obtain rfl := Except.ok.inj h
    by_cases hv : y = some v
    · have hp : stem ++ Key.encode (some v) order <+: stem ++ (Key.encode y order ++ rest) :=
        (prefix_encode (some v) y rest).mpr hv.symm
      have hle := Bytes.isLE_of_starts hp
      simp only [passesLast, hv, apply_self, reduceCtorEq, iff_false] at hle ⊢
      exact fun hlt => Std.OrientedCmp.not_lt_of_isLE hle hlt
    · rw [compare_stem' hv]
      rfl

end

/-- The bounds of a range in the order of columns. -/
def inColumnOrder (order : SortOrder) (lower upper : Bound) : Bound × Bound :=
  match order with
  | .asc => (lower, upper)
  | .desc => (upper, lower)

theorem takes_iff (order : SortOrder) (lower upper : Bound) (y : Option Value) :
    passesFirst order (inColumnOrder order lower upper).1 y ∧
      passesLast order (inColumnOrder order lower upper).2 y ↔ takes lower upper y = true := by
  have hge (a b : Value) : (compare a b).isGE = (compare b a).isLE := Std.OrientedCmp.isGE_eq_isLE
  have hgt (a b : Value) : compare a b = .gt ↔ compare b a = .lt := Std.OrientedCmp.gt_iff_lt
  cases order <;> cases lower <;> cases upper <;> cases y <;>
    simp [passesFirst, passesLast, inColumnOrder, takes, SortOrder.apply, Value.cmpAbsentLast,
      Bound.allowsAbove, Bound.allowsBelow, hge, hgt, and_comm]

/-! ## Stems and components -/

theorem length_typeStem (t : RelationType) : (typeStem t).length = 6 := by
  simp [typeStem, Bytes.length_bigEndian]

theorem id_eq_of_typeStem {t u : RelationType} (h : typeStem t = typeStem u) : t.id = u.id := by
  have hb : Bytes.bigEndian 4 t.id.val.toNat = Bytes.bigEndian 4 u.id.val.toNat := by
    simp only [typeStem, List.cons_append, List.nil_append, List.cons.injEq] at h
    exact h.2.2
  have hn := Bytes.bigEndian_inj t.id.val.toNat_lt u.id.val.toNat_lt hb
  cases ht : t.id
  cases hu : u.id
  rw [ht, hu] at hn
  exact congrArg TypeId.mk (UInt32.toNat_inj.mp hn)

/-- A column: the stem of a layout, the byte of an end, the values of the components and a tail. -/
def columnAt (t : RelationType) (end? : UInt8) (values : List (Option Value)) (tail : Bytes) :
    Bytes :=
  typeStem t ++ [end?] ++ encodeComponents t 0 values ++ tail

theorem encodeComponents_append (t : RelationType) (p : Nat) (xs ys : List (Option Value)) :
    encodeComponents t p (xs ++ ys)
      = encodeComponents t p xs ++ encodeComponents t (p + xs.length) ys := by
  induction xs generalizing p with
  | nil => rfl
  | cons x xs ih =>
    rw [List.cons_append, encodeComponents, encodeComponents, ih, List.append_assoc,
      List.length_cons, show p + 1 + xs.length = p + (xs.length + 1) by omega]

/-- Encoded values start with other encoded values only if they are the first of them. -/
theorem encodeComponents_prefix_iff (t : RelationType) (p : Nat) {xs ys : List (Option Value)}
    (h : xs.length ≤ ys.length) (tail : Bytes) :
    encodeComponents t p xs <+: encodeComponents t p ys ++ tail ↔ xs <+: ys := by
  induction xs generalizing p ys with
  | nil => simp [encodeComponents]
  | cons x xs ih =>
    cases ys with
    | nil => simp at h
    | cons y ys =>
      rw [encodeComponents, encodeComponents, List.append_assoc, Key.encode_prefix_iff,
        ih (p + 1) (Nat.le_of_succ_le_succ h), List.cons_prefix_cons]

/-! ## What a slice holds -/

theorem contains_stemSlice {stem : Bytes} {s : Slice} (h : stemSlice stem = .ok s) (c : Bytes) :
    s.contains c = true ↔ stem <+: c := by
  obtain ⟨stop, hstop, hs⟩ := Outcome.bind_eq_ok.mp h
  obtain rfl := Except.ok.inj hs
  rw [← Bytes.nextAfter_bounds (successor_eq.mp hstop)]
  simp [Slice.contains, Bytes.before]

section

variable {t : RelationType} {d : Direction} {end? : UInt8} {r : KeyRestriction} {s : Slice}

/-- The stem of a slice over a layout at one end. -/
def sliceStem (t : RelationType) (end? : UInt8) (points : List Value) : Bytes :=
  typeStem t ++ [end?] ++ encodeComponents t 0 (points.map some)

theorem typeSlice_unrestricted (hd : directionByte? d = some end?) (hr : r.range = none)
    (h : typeSlice t d r = .ok s) (c : Bytes) :
    s.contains c = true ↔ sliceStem t end? r.points <+: c := by
  unfold typeSlice at h
  rw [hd, hr] at h
  exact contains_stemSlice h c

theorem typeSlice_restricted {lower upper : Bound} (hd : directionByte? d = some end?)
    (hr : r.range = some (lower, upper)) (h : typeSlice t d r = .ok s) :
    ∃ order, order = componentOrder t r.points.length ∧
      lowerColumn (sliceStem t end? r.points) order (inColumnOrder order lower upper).1
        = .ok s.start ∧
      upperColumn (sliceStem t end? r.points) order (inColumnOrder order lower upper).2
        = .ok s.stop := by
  refine ⟨_, rfl, ?_⟩
  unfold typeSlice at h
  rw [hd, hr] at h
  cases ho : componentOrder t r.points.length <;>
  · simp only [ho, Outcome.bind_eq_ok] at h
    obtain ⟨start, hstart, stop, hstop, hs⟩ := h
    obtain rfl := Except.ok.inj hs
    exact ⟨hstart, hstop⟩

theorem stem_le_lowerColumn {stem start : Bytes} {order : SortOrder} {b : Bound}
    (h : lowerColumn stem order b = .ok start) : (compare stem start).isLE := by
  cases b with
  | unbounded =>
    obtain rfl := Except.ok.inj h
    exact Bytes.isLE_of_starts (List.prefix_refl _)
  | included v =>
    obtain rfl := Except.ok.inj h
    exact Bytes.isLE_of_starts (List.prefix_append _ _)
  | excluded v =>
    exact Std.TransCmp.isLE_trans (Bytes.isLE_of_starts (List.prefix_append _ _))
      (Bytes.isLE_nextAfter (successor_eq.mp h))

theorem upperColumn_le {stem stop e : Bytes} {order : SortOrder} {b : Bound}
    (he : nextAfter stem = some e) (h : upperColumn stem order b = .ok stop) :
    (compare stop e).isLE := by
  cases b with
  | unbounded =>
    obtain rfl := Option.some.inj (he.symm.trans (successor_eq.mp h))
    exact Bytes.isLE_of_starts (List.prefix_refl _)
  | included v => exact Bytes.nextAfter_anti he (successor_eq.mp h) (List.prefix_append _ _)
  | excluded v =>
    obtain rfl := Except.ok.inj h
    rw [Bytes.lt_nextAfter he (List.prefix_append _ _)]
    rfl

theorem visibilityByte_ne (t : RelationType) : visibilityByte t ≠ 0xFF := by
  unfold visibilityByte
  split
  · decide
  · split <;> decide

theorem contains_iff (s : Slice) (c : Bytes) :
    s.contains c = true ↔ (compare s.start c).isLE ∧ compare c s.stop = .lt := by
  simp [Slice.contains, Bytes.before]

/-- Whatever a slice over a layout at one end holds starts with the stem of the slice. -/
theorem stem_of_contains (hd : directionByte? d = some end?) (h : typeSlice t d r = .ok s)
    {c : Bytes} (hc : s.contains c = true) : sliceStem t end? r.points <+: c := by
  cases hr : r.range with
  | none => exact (typeSlice_unrestricted hd hr h c).mp hc
  | some range =>
    obtain ⟨lower, upper⟩ := range
    obtain ⟨order, -, hstart, hstop⟩ := typeSlice_restricted hd hr h
    obtain ⟨hle, hlt⟩ := (contains_iff s c).mp hc
    have hsome : (nextAfter (sliceStem t end? r.points)).isSome :=
      Bytes.nextAfter_isSome (visibilityByte_ne t) _
    obtain ⟨e, he⟩ := Option.isSome_iff_exists.mp hsome
    refine (Bytes.nextAfter_bounds he c).mp ⟨?_, ?_⟩
    · exact Std.TransCmp.isLE_trans (stem_le_lowerColumn hstart) hle
    · exact Std.TransCmp.lt_of_lt_of_isLE hlt (upperColumn_le he hstop)

theorem sliceStem_prefix_iff {values : List (Option Value)} (hl : r.points.length ≤ values.length)
    (tail : Bytes) :
    sliceStem t end? r.points <+: columnAt t end? values tail ↔ r.points.map some <+: values := by
  unfold sliceStem columnAt
  rw [List.append_assoc _ (encodeComponents t 0 values) tail, List.prefix_append_right_inj]
  exact encodeComponents_prefix_iff t 0 (by simpa using hl) tail

/-- A slice holds the columns that start with its points and go on with a value in its range. -/
theorem contains_columnAt (hd : directionByte? d = some end?) (h : typeSlice t d r = .ok s)
    {values : List (Option Value)} (hl : r.points.length ≤ values.length)
    (hlt : r.range.isSome → r.points.length < values.length) (tail : Bytes) :
    s.contains (columnAt t end? values tail) = true ↔
      r.points.map some <+: values ∧ ∀ lower upper, r.range = some (lower, upper) →
        ∃ y, values[r.points.length]? = some y ∧ takes lower upper y = true := by
  cases hr : r.range with
  | none =>
    rw [typeSlice_unrestricted hd hr h, sliceStem_prefix_iff hl]
    simp
  | some range =>
    obtain ⟨lower, upper⟩ := range
    obtain ⟨order, horder, hstart, hstop⟩ := typeSlice_restricted hd hr h
    by_cases hp : r.points.map some <+: values
    · obtain ⟨more, rfl⟩ := hp
      have hmore : more ≠ [] := by
        rintro rfl
        simp [hr] at hlt
      obtain ⟨y, zs, rfl⟩ := List.exists_cons_of_ne_nil hmore
      have hcol : columnAt t end? (r.points.map some ++ y :: zs) tail = sliceStem t end? r.points ++
          (Key.encode y order ++ (encodeComponents t (r.points.length + 1) zs ++ tail)) := by
        unfold columnAt sliceStem
        rw [encodeComponents_append, horder]
        simp [encodeComponents]
      rw [hcol, contains_iff, lowerColumn_le hstart, before_upperColumn hstop, takes_iff]
      simp
    · simp only [hp, false_and, iff_false]
      exact fun hc => hp ((sliceStem_prefix_iff hl tail).mp (stem_of_contains hd h hc))

end

/-! ## The column of a relation -/

/-- The values of the components of a column, seen from `v`. -/
def componentValues (t : RelationType) (d : Direction) (r : Relation) (v : VertexId) :
    List (Option Value) :=
  (Candidate.extendedSortKey t d).map fun key => r.valueOf key v

theorem encode_component {t : RelationType} {n : Nat} (h : t.sortKey.length ≤ n) (y : Option Value) :
    encodeComponents t n [y] = Key.encode y .asc := by
  simp [encodeComponents, componentOrder, Nat.not_lt.mpr h]

/-- The bytes of the adjacent vertex in a column. -/
def adjacentBytes (t : RelationType) (d : Direction) (r : Relation) (v : VertexId) : Bytes :=
  if t.isEdgeLabel && !t.multiplicity.isUnique d then
    Key.encode (r.valueOf ImplicitKey.adjacent.typeId v) .asc
  else []

/-- The bytes of the value of a property in a column. -/
def ownBytes (t : RelationType) (r : Relation) : Bytes :=
  if t.isPropertyKey && t.multiplicity == .simple then Key.encode r.value .asc else []

/-- The bytes of the id of a relation in a column. -/
def idBytes (t : RelationType) (r : Relation) (v : VertexId) : Bytes :=
  if t.multiplicity.isConstrained then []
  else Key.encode (r.valueOf ImplicitKey.id.typeId v) .asc

section

variable {t base : RelationType} {r : Relation} {d : Direction} {v : VertexId} {c : Bytes}

theorem column_parts (hk : t.kind = base.kind) (h : column t base r d v = .ok c) :
    ∃ end?, directionByte? d = some end? ∧
      c = typeStem t ++ [end?] ++ encodeComponents t 0 (t.sortKey.map fun key => r.valueOf key v) ++
        adjacentBytes t d r v ++ ownBytes t r ++ idBytes t r v := by
  have hedge : base.isEdgeLabel = t.isEdgeLabel := by
    unfold RelationType.isEdgeLabel
    rw [hk]
  have hprop : base.isPropertyKey = t.isPropertyKey := by
    unfold RelationType.isPropertyKey
    rw [hk]
  simp only [column, hedge, hprop] at h
  split at h
  · rename_i end? hd
    refine ⟨end?, hd, ?_⟩
    unfold adjacentBytes
    split at h
    · rename_i ha
      rw [if_pos ha]
      split at h
      · rename_i w hw
        have hval : r.valueOf ImplicitKey.adjacent.typeId v = some (.vertex w) := by
          show (r.otherVertex? v).map Value.vertex = _
          rw [hw]
          rfl
        rw [hval]
        exact (Except.ok.inj h).symm
      · simp [throw, throwThe, MonadExceptOf.throw, bind, Except.bind] at h
    · rename_i ha
      rw [if_neg ha]
      exact (Except.ok.inj h).symm
  · simp [throw, throwThe, MonadExceptOf.throw] at h

/-- The column of a relation in a layout of its kind holds its values. -/
theorem column_eq (hk : t.kind = base.kind) (h : column t base r d v = .ok c) :
    ∃ end? tail, directionByte? d = some end? ∧
      c = columnAt t end? (componentValues t d r v) tail := by
  obtain ⟨end?, hd, rfl⟩ := column_parts hk h
  refine ⟨end?, ?_⟩
  -- what follows the sort key in a column is either a component or belongs to the tail
  unfold componentValues Candidate.extendedSortKey columnAt
  cases hu : t.multiplicity.isUnique d with
  | true =>
    exact ⟨adjacentBytes t d r v ++ ownBytes t r ++ idBytes t r v, hd, by simp⟩
  | false =>
    cases he : t.isEdgeLabel with
    | true =>
      have hp : t.isPropertyKey = false := by
        unfold RelationType.isEdgeLabel at he
        unfold RelationType.isPropertyKey
        rw [beq_iff_eq.mp he]
        rfl
      cases hm : t.multiplicity.isConstrained with
      | true =>
        refine ⟨[], hd, ?_⟩
        simp [adjacentBytes, ownBytes, idBytes, hu, he, hp, hm, encodeComponents_append,
          encode_component]
      | false =>
        have hafter : ¬ t.sortKey.length + 1 < t.sortKey.length := by omega
        refine ⟨[], hd, ?_⟩
        simp [adjacentBytes, ownBytes, idBytes, hu, he, hp, hm, encodeComponents_append,
          encodeComponents, componentOrder, hafter]
    | false =>
      cases hm : t.multiplicity.isConstrained with
      | true =>
        refine ⟨ownBytes t r, hd, ?_⟩
        simp [adjacentBytes, idBytes, he, hm]
      | false =>
        have hs : t.multiplicity = .multi := by
          unfold Multiplicity.isConstrained at hm
          simpa using hm
        refine ⟨[], hd, ?_⟩
        simp [adjacentBytes, ownBytes, idBytes, he, hs, Multiplicity.isConstrained,
          encodeComponents_append, encode_component]

end

end RowGraph.Layout
