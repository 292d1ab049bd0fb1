import RowGraph.Proofs.SharedColumns

/-!
# The key space

The columns of a row are divided by what is visible, the kind, the type number and the end, in this
order, and the unrestricted slices follow the division.  Each of them reaches from a stem to the end of
its extensions; no stem is all 0xFF, so that there is such an end whatever the number of the type, and
stems of layouts are of one length, so that none of them starts another.

* `exists_typeSlice`, `exists_categorySlice`: the slices over a layout and over a category exist.
* `contains_typeSlice`: the slice over a layout holds the columns of this layout at the ends asked for.
* `contains_of_entry`: which of these slices hold a column that a relation is written under.
-/

namespace RowGraph.Layout

variable {schema : Schema} {r : Relation} {v : VertexId} {base t : RelationType} {d : Direction}
  {c : Bytes}

/-! ## There are slices -/

theorem exists_stemSlice {b : UInt8} (hb : b ≠ 0xFF) (rest : Bytes) :
    ∃ s, stemSlice (b :: rest) = .ok s := by
  obtain ⟨stop, hstop⟩ := Option.isSome_iff_exists.mp (Bytes.nextAfter_isSome hb rest)
  exact ⟨⟨b :: rest, stop, none⟩, Outcome.bind_eq_ok.mpr ⟨stop, successor_eq.mpr hstop, rfl⟩⟩

/-- Every layout can be read without a restriction, at one end or at both. -/
theorem exists_typeSlice (t : RelationType) (d : Direction) :
    ∃ s, typeSlice t d .none = .ok s := by
  cases d <;> exact exists_stemSlice (visibilityByte_ne t) _

/-- Every category can be read. -/
theorem exists_categorySlice (category : Category) (system : Bool) :
    ∃ s, categorySlice category system = .ok s :=
  exists_stemSlice (by cases system <;> decide) _

/-! ## What they hold -/

/-- The end is one of those asked for. -/
theorem ends_eq_iff {e : Direction} {b b' : UInt8} (hd : directionByte? d = some b)
    (he : directionByte? e = some b') : b' = b ↔ e = d ∨ e = .both := by
  have hboth : e ≠ .both := by
    rintro rfl
    cases he
  constructor
  · rintro rfl
    exact .inl (directionByte?_inj he hd)
  · intro h
    obtain rfl := h.resolve_right hboth
    exact Option.some.inj (he.symm.trans hd)

/-- A slice over a layout holds the columns of this layout at the ends asked for. -/
theorem contains_typeSlice (hs : schema.Sound) (hp : Placed schema r v base t d c) {u : RelationType}
    (hu : u ∈ schema.types) {e : Direction} {s : Slice} (hslice : typeSlice u e .none = .ok s) :
    s.contains c = true ↔ u = t ∧ (e = d ∨ e = .both) := by
  cases hb : directionByte? e with
  | none =>
    have he : e = .both := by
      cases e <;> simp [directionByte?] at hb ⊢
    subst he
    rw [contains_bothEnds hs hp hu hslice]
    simp [eq_comm]
  | some b' =>
    obtain ⟨b, tail, hd, rfl⟩ := hp.column_eq hs
    rw [typeSlice_unrestricted hb rfl hslice, ← ends_eq_iff hd hb]
    constructor
    · intro hstem
      obtain ⟨hstem, hend⟩ := typeStem_end_eq hstem
      exact ⟨hs.eq_of_id hu (hp.layout hs).1 (id_eq_of_typeStem hstem), hend⟩
    · rintro ⟨rfl, rfl⟩
      exact (sliceStem_prefix_iff (Nat.zero_le _) tail).mpr List.nil_prefix

/-! ## Columns that are written -/

/-- A column that a relation is written under lies in the slice over a layout just if it was written for
this layout and an end asked for, and in the slice over a category just if it was written for a type,
not an index, that is of the category and belongs to the system as asked. -/
theorem contains_of_entry (hs : schema.Built) {es : List (Bytes × Entry)}
    (h : entriesFor schema r = .ok es) {key : Bytes} {e : Entry} (hm : (key, e) ∈ es) :
    (∃ v base t d, key = rowKey v ∧ Placed schema r v base t d e.column) ∧
      ∀ v base t d, Placed schema r v base t d e.column →
        (∀ u ∈ schema.types, ∀ f, ∃ s, typeSlice u f .none = .ok s ∧
          (s.contains e.column = true ↔ u = t ∧ (f = d ∨ f = .both))) ∧
        ∀ category system, ∃ s, categorySlice category system = .ok s ∧
          (s.contains e.column = true ↔
            t.isIndex = false ∧ t.isSystem = system ∧ ofCategory category t = true) := by
  refine ⟨((mem_entriesFor h).mp hm).2,
    fun v base t d hp => ⟨fun u hu f => ?_, fun category system => ?_⟩⟩
  · obtain ⟨s, hslice⟩ := exists_typeSlice u f
    exact ⟨s, hslice, contains_typeSlice hs.sound hp hu hslice⟩
  · obtain ⟨s, hslice⟩ := exists_categorySlice category system
    exact ⟨s, hslice, contains_categorySlice hs.sound hp hslice⟩

/-- Of the slices over the types and the index of the schema of owners, the column of an ownership is in
those over one layout, at one end or at both. -/
theorem contains_of_entry_owned :
    Owned.entry ⟨7⟩ ∈ Owned.entries ⟨7⟩ ∧ ∃ t d, ∀ u ∈ Owned.schema.types, ∀ f, ∃ s,
      typeSlice u f .none = .ok s ∧
        (s.contains (Owned.entry ⟨7⟩).2.column = true ↔ u = t ∧ (f = d ∨ f = .both)) := by
  have hes : entriesFor Owned.schema (Owned.owning ⟨7⟩) = .ok (Owned.entries ⟨7⟩) :=
    Outcome.eq_ok_getD (by decide +kernel) _
  have he : ((Owned.entry ⟨7⟩).1, (Owned.entry ⟨7⟩).2) ∈ Owned.entries ⟨7⟩ := by decide +kernel
  obtain ⟨⟨v, base, t, d, -, hp⟩, hslices⟩ := contains_of_entry Owned.schema_built hes he
  exact ⟨he, t, d, (hslices v base t d hp).1⟩

end RowGraph.Layout
