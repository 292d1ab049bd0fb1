import RowGraph.Proofs.KeySpace

/-!
# Restricted slices

A restriction gives exact values of the leading components of a layout and perhaps a range of the next
one.  Its slice over the layout at an end holds the columns whose values meet it and no others
(`contains_column_iff`).  Ascending and descending components differ only in which bound comes first;
an absent value comes last in the one order and first in the other, so that in both it lies on the far
side of every upper bound.

There is such a slice for every restriction: no column starts with 0xFF, and so every bound that is
moved past the extensions of a key has somewhere to move (`exists_restrictedSlice`).
-/

namespace RowGraph

/-- How many components a restriction is about. -/
def KeyRestriction.width (k : KeyRestriction) : Nat := k.points.length + k.range.toList.length

/-- The values of components meet a restriction: each point is the value at its place, and the value
after them lies in the range.  An absent value is no point, and in a range without an upper bound only. -/
def KeyRestriction.Admits (k : KeyRestriction) (values : List (Option Value)) : Prop :=
  (∀ (i : Nat) (p : Value), k.points[i]? = some p → values[i]? = some (some p)) ∧
    ∀ lower upper, k.range = some (lower, upper) →
      ∃ y, values[k.points.length]? = some y ∧ Layout.takes lower upper y = true

theorem KeyRestriction.points_prefix_iff (k : KeyRestriction) (values : List (Option Value)) :
    k.points.map some <+: values ↔
      ∀ (i : Nat) (p : Value), k.points[i]? = some p → values[i]? = some (some p) := by
  rw [List.prefix_iff_getElem?]
  constructor
  · intro h i p hp
    obtain ⟨hi, rfl⟩ := List.getElem?_eq_some_iff.mp hp
    have hv := h i (by simpa using hi)
    rwa [List.getElem_map] at hv
  · intro h i hi
    have hi' : i < k.points.length := by simpa using hi
    rw [List.getElem_map]
    exact h i k.points[i] (List.getElem?_eq_getElem hi')

namespace Layout

variable {t base : RelationType} {r : Relation} {d : Direction} {v : VertexId} {c : Bytes}
  {k : KeyRestriction} {end? : UInt8}

theorem sliceStem_append (t : RelationType) (end? : UInt8) (points : List Value) (w : Value) :
    sliceStem t end? (points ++ [w]) =
      sliceStem t end? points ++ Key.encode (some w) (componentOrder t points.length) := by
  unfold sliceStem
  simp [encodeComponents_append, encodeComponents]

/-! ## There are slices -/

theorem exists_successor (t : RelationType) (end? : UInt8) (points : List Value) (rest : Bytes) :
    ∃ e, Key.successor (sliceStem t end? points ++ rest) = .ok e := by
  obtain ⟨e, he⟩ := Option.isSome_iff_exists.mp (Bytes.nextAfter_isSome (visibilityByte_ne t)
    ([kindByte t.kind] ++ Bytes.bigEndian 4 t.id.val.toNat ++ [end?] ++
      encodeComponents t 0 (points.map some) ++ rest))
  refine ⟨e, successor_eq.mpr ?_⟩
  rw [← he]
  simp [sliceStem, typeStem]

theorem exists_lowerColumn (t : RelationType) (end? : UInt8) (points : List Value) (order : SortOrder)
    (b : Bound) : ∃ start, lowerColumn (sliceStem t end? points) order b = .ok start := by
  cases b with
  | unbounded => exact ⟨_, rfl⟩
  | included v => exact ⟨_, rfl⟩
  | excluded v => exact exists_successor t end? points _

theorem exists_upperColumn (t : RelationType) (end? : UInt8) (points : List Value) (order : SortOrder)
    (b : Bound) : ∃ stop, upperColumn (sliceStem t end? points) order b = .ok stop := by
  cases b with
  | unbounded =>
    have h := exists_successor t end? points []
    rwa [List.append_nil] at h
  | included v => exact exists_successor t end? points _
  | excluded v => exact ⟨_, rfl⟩

/-- A layout can be read at one end under every restriction. -/
theorem exists_restrictedSlice (t : RelationType) (hd : directionByte? d = some end?)
    (k : KeyRestriction) : ∃ s, typeSlice t d k = .ok s := by
  unfold typeSlice
  rw [hd]
  cases hr : k.range with
  | none => exact exists_stemSlice (visibilityByte_ne t) _
  | some range =>
    obtain ⟨lower, upper⟩ := range
    cases ho : componentOrder t k.points.length with
    | asc =>
      obtain ⟨start, hstart⟩ := exists_lowerColumn t end? k.points .asc lower
      obtain ⟨stop, hstop⟩ := exists_upperColumn t end? k.points .asc upper
      exact ⟨⟨start, stop, none⟩, Outcome.bind_eq_ok.mpr ⟨start, hstart,
        Outcome.bind_eq_ok.mpr ⟨stop, hstop, rfl⟩⟩⟩
    | desc =>
      obtain ⟨start, hstart⟩ := exists_lowerColumn t end? k.points .desc upper
      obtain ⟨stop, hstop⟩ := exists_upperColumn t end? k.points .desc lower
      exact ⟨⟨start, stop, none⟩, Outcome.bind_eq_ok.mpr ⟨start, hstart,
        Outcome.bind_eq_ok.mpr ⟨stop, hstop, rfl⟩⟩⟩

/-- A layout cannot be read only where both ends and a restriction are asked for. -/
theorem typeSlice_error {e : Failure} (h : typeSlice t d k = .error e) :
    d = .both ∧ e = .invalid "sort-key restrictions need a single direction" := by
  cases hd : directionByte? d with
  | some end? =>
    obtain ⟨s, hs⟩ := exists_restrictedSlice t hd k
    rw [hs] at h
    cases h
  | none =>
    have hboth : d = .both := by
      cases d <;> simp [directionByte?] at hd ⊢
    refine ⟨hboth, ?_⟩
    obtain ⟨s, hs⟩ : ∃ s, stemSlice (typeStem t) = .ok s := exists_stemSlice (visibilityByte_ne t) _
    unfold typeSlice at h
    rw [hd] at h
    simp only [hs] at h
    split at h
    · exact (Except.error.inj h).symm
    · cases h

/-- Both ends can be read without a restriction only. -/
theorem typeSlice_bothEnds {s : Slice} (h : typeSlice t .both k = .ok s) : k.points = [] ∧ k.range = none := by
  unfold typeSlice at h
  obtain ⟨hfree, -⟩ := Outcome.guard_eq_ok.mp h
  simpa using hfree

/-! ## What they hold -/

/-- The slice for a restriction over a layout at an end holds a column of this layout and end just if
the values of the relation meet the restriction. -/
theorem contains_column_iff (hkind : t.kind = base.kind) (hc : column t base r d v = .ok c)
    (hwidth : k.width ≤ (Candidate.extendedSortKey t d).length) :
    ∃ s, typeSlice t d k = .ok s ∧
      (s.contains c = true ↔ k.Admits (componentValues t d r v)) := by
  obtain ⟨end?, tail, hd, rfl⟩ := column_eq hkind hc
  obtain ⟨s, hs⟩ := exists_restrictedSlice t hd k
  have hlength : (componentValues t d r v).length = (Candidate.extendedSortKey t d).length :=
    List.length_map ..
  unfold KeyRestriction.width at hwidth
  have hpoints : k.points.length ≤ (componentValues t d r v).length := by omega
  have hrange : k.range.isSome → k.points.length < (componentValues t d r v).length := by
    intro hsome
    obtain ⟨range, hrange⟩ := Option.isSome_iff_exists.mp hsome
    rw [hrange, Option.toList_some, List.length_singleton] at hwidth
    omega
  refine ⟨s, hs, ?_⟩
  rw [contains_columnAt hd hs hpoints hrange, KeyRestriction.points_prefix_iff]
  rfl

/-- Ownerships after time 3. -/
def Owned.afterThree : KeyRestriction := ⟨[], some (.excluded (.int 3), .unbounded)⟩

/-- The type of the ownerships. -/
def Owned.owns : RelationType := (Owned.schema.named? "owns").getD default

/-- The index over the ownerships. -/
def Owned.latest : RelationType := (Owned.schema.named? "latest").getD default

/-- An ownership without a time comes first in the index, where times descend, and the slice for the
times after 3 holds it. -/
theorem contains_column_iff_latest :
    Owned.latest.kind = Owned.owns.kind ∧ Owned.latest.sortOrder = .desc ∧
      ∃ c, column Owned.latest Owned.owns (Relation.edge ⟨7⟩ ⟨1025⟩ ⟨1⟩ ⟨2⟩) .out ⟨1⟩ = .ok c ∧
        ∃ s, typeSlice Owned.latest .out Owned.afterThree = .ok s ∧ s.contains c = true := by
  have hkind : Owned.latest.kind = Owned.owns.kind := by decide +kernel
  have hc := Outcome.eq_ok_getD (x := column Owned.latest Owned.owns
    (Relation.edge ⟨7⟩ ⟨1025⟩ ⟨1⟩ ⟨2⟩) .out ⟨1⟩) (by decide +kernel) []
  obtain ⟨s, hs, hiff⟩ := contains_column_iff (k := Owned.afterThree) hkind hc (by decide +kernel)
  refine ⟨hkind, by decide +kernel, _, hc, s, hs, hiff.mpr ⟨by simp [Owned.afterThree], ?_⟩⟩
  rintro lower upper hrange
  obtain ⟨rfl, rfl⟩ := Prod.mk.inj (Option.some.inj hrange)
  have hfirst : (componentValues Owned.latest .out (Relation.edge ⟨7⟩ ⟨1025⟩ ⟨1⟩ ⟨2⟩) ⟨1⟩)[0]? =
      some none := by decide +kernel
  exact ⟨none, hfirst, rfl⟩

end Layout

end RowGraph
