import RowGraph.Proofs.Columns

/-!
# The entries of relations

`Placed` says where a relation is kept: in the row of each of its ends, once in every layout that
keeps this end.  The columns of a row tell layouts and ends apart, so that a slice over one layout at
one end, over a type or over a category holds no columns but its own.

* `mem_entriesFor`: the entries of a relation are its places.
* `exists_entriesFor_iff`, `exists_entriesFor`: which relations can be written, as are those of the category
  of their type.
* `placed_eq`: a slice over a layout at an end holds columns of this layout and end only.
* `contains_categorySlice`: a slice over a category holds the columns of its types, not of indexes.
-/

namespace RowGraph.Layout

/-- The relation has the column `c` in the row of `v`: it is of type `base`, `v` sits at its end `d`,
and the layout `t` keeps this end. -/
structure Placed (schema : Schema) (r : Relation) (v : VertexId) (base t : RelationType)
    (d : Direction) (c : Bytes) : Prop where
  typed : schema.type? r.typeId = some base
  kept : ∃ layouts, keptLayouts schema base = .ok layouts ∧ t ∈ layouts
  stored : t.storesDirection d = true
  sits : (d, v) ∈ ends r
  column : column t base r d v = .ok c

theorem rowKey_inj {v w : VertexId} (h : rowKey v = rowKey w) : v = w := by
  have hn := Bytes.bigEndian_inj v.val.toNat_lt w.val.toNat_lt h
  cases v
  cases w
  exact congrArg VertexId.mk (UInt64.toNat_inj.mp hn)

theorem mem_ends {r : Relation} {d : Direction} {v : VertexId} :
    (d, v) ∈ ends r ↔ d ∈ Direction.ends ∧ r.sitsAt v d = true := by
  unfold ends Direction.ends Relation.sitsAt
  cases d with
  | both => cases r.inVertex <;> simp
  | out => cases r.inVertex <;> simp [eq_comm (a := v)]
  | into => cases r.inVertex <;> simp [eq_comm (a := v)]

section

variable {schema : Schema} {r : Relation} {v : VertexId} {base t : RelationType} {d : Direction}
  {c : Bytes}

theorem Placed.sitsAt (hp : Placed schema r v base t d c) : r.sitsAt v d = true :=
  (mem_ends.mp hp.sits).2

/-- The entries of a relation are its places. -/
theorem mem_entriesFor {es : List (Bytes × Entry)} (h : entriesFor schema r = .ok es) {key : Bytes}
    {e : Entry} :
    (key, e) ∈ es ↔ e.value = r.storedBytes ∧
      ∃ v base t d, key = rowKey v ∧ Placed schema r v base t d e.column := by
  unfold entriesFor at h
  split at h
  · rename_i base hbase
    obtain ⟨layouts, hl, h⟩ := Outcome.bind_eq_ok.mp h
    rw [Outcome.mem_of_mapM h]
    constructor
    · rintro ⟨⟨t, d, v⟩, hp, hc⟩
      obtain ⟨c, hcol, he⟩ := Outcome.bind_eq_ok.mp hc
      obtain ⟨hkey, rfl⟩ := Prod.mk.inj (Except.ok.inj he)
      obtain ⟨⟨d', v'⟩, hend, hp⟩ := List.mem_flatMap.mp hp
      obtain ⟨t', ht, htd⟩ := List.mem_map.mp hp
      obtain ⟨ht, hst⟩ := List.mem_filter.mp ht
      simp only [Prod.mk.injEq] at htd
      obtain ⟨rfl, rfl, rfl⟩ := htd
      exact ⟨rfl, v', base, t', d', hkey.symm, hbase, ⟨layouts, hl, ht⟩, hst, hend, hcol⟩
    · rintro ⟨hval, v, base', t, d, rfl, hp⟩
      obtain rfl := Option.some.inj (hbase.symm.trans hp.typed)
      obtain ⟨layouts', hl', ht⟩ := hp.kept
      obtain rfl := Except.ok.inj (hl.symm.trans hl')
      refine ⟨(t, d, v), List.mem_flatMap.mpr ⟨(d, v), hp.sits, ?_⟩, ?_⟩
      · exact List.mem_map.mpr ⟨t, List.mem_filter.mpr ⟨ht, hp.stored⟩, rfl⟩
      · rw [Outcome.bind_eq_ok]
        refine ⟨_, hp.column, ?_⟩
        rw [← hval]
        rfl
  · simp [throw, throwThe, MonadExceptOf.throw] at h

theorem keptLayouts_ok {es : List (Bytes × Entry)} (h : entriesFor schema r = .ok es)
    (hb : schema.type? r.typeId = some base) :
    ∃ layouts, keptLayouts schema base = .ok layouts := by
  unfold entriesFor at h
  rw [hb] at h
  obtain ⟨layouts, hl, -⟩ := Outcome.bind_eq_ok.mp h
  exact ⟨layouts, hl⟩

theorem mem_keptLayouts_self {layouts : List RelationType} (h : keptLayouts schema base = .ok layouts) :
    base ∈ layouts := by
  obtain ⟨indexes, -, he⟩ := Outcome.bind_eq_ok.mp h
  obtain rfl := Except.ok.inj he
  exact List.mem_cons_self

/-- A relation that can be written has a column in every layout that keeps one of its ends. -/
theorem exists_placed {es : List (Bytes × Entry)} (h : entriesFor schema r = .ok es)
    (hb : schema.type? r.typeId = some base) {layouts : List RelationType}
    (hl : keptLayouts schema base = .ok layouts) (ht : t ∈ layouts)
    (hst : t.storesDirection d = true) (hd : (d, v) ∈ ends r) :
    ∃ c, Placed schema r v base t d c := by
  unfold entriesFor at h
  rw [hb] at h
  obtain ⟨layouts', hl', h⟩ := Outcome.bind_eq_ok.mp h
  obtain rfl := Except.ok.inj (hl.symm.trans hl')
  obtain ⟨y, hy⟩ := Outcome.ok_of_mapM h
    (List.mem_flatMap.mpr ⟨(d, v), hd, List.mem_map.mpr ⟨t, List.mem_filter.mpr ⟨ht, hst⟩, rfl⟩⟩)
  obtain ⟨c, hc, -⟩ := Outcome.bind_eq_ok.mp hy
  exact ⟨c, hb, ⟨layouts, hl, ht⟩, hst, hd, hc⟩

/-- A relation has a column in a layout at one of its ends, if there is another vertex where the column tells
it. -/
theorem exists_column_iff (hd : (d, v) ∈ ends r) : (∃ c, column t base r d v = .ok c) ↔
    (base.isEdgeLabel = true → r.inVertex = none → t.multiplicity.isUnique d = true) := by
  have hend : ∃ b, directionByte? d = some b := by
    have hmem := (mem_ends.mp hd).1
    cases d <;> simp [Direction.ends, directionByte?] at hmem ⊢
  obtain ⟨b, hb⟩ := hend
  simp only [column, hb]
  cases hin : r.inVertex with
  | some w =>
    simp only [Relation.otherVertex?, hin, Option.map_some, reduceCtorEq, false_implies, implies_true, iff_true]
    split <;> exact ⟨_, rfl⟩
  | none =>
    simp only [Relation.otherVertex?, hin, Option.map_none]
    by_cases htold : (base.isEdgeLabel && !t.multiplicity.isUnique d) = true
    · rw [if_pos htold]
      obtain ⟨hedge, hunique⟩ := Bool.and_eq_true_iff.mp htold
      refine ⟨?_, fun h => ?_⟩
      · rintro ⟨c, hc⟩
        cases hc
      · simp [h hedge trivial] at hunique
    · rw [if_neg htold]
      refine ⟨fun _ hedge _ => ?_, fun _ => ⟨_, rfl⟩⟩
      simpa [hedge] using htold

/-- A relation can be written: it has a type, all indexes of the type are there, and it has two ends if it is
an edge of which some column tells the other end. -/
def Encodable (schema : Schema) (r : Relation) : Prop :=
  ∃ base layouts, schema.type? r.typeId = some base ∧ keptLayouts schema base = .ok layouts ∧
    (base.isEdgeLabel = true → r.inVertex = none →
      ∀ t ∈ layouts, t.storesDirection .out = true → t.multiplicity.isUnique .out = true)

/-- Just the relations that can be written have entries. -/
theorem exists_entriesFor_iff : (∃ es, entriesFor schema r = .ok es) ↔ Encodable schema r := by
  constructor
  · rintro ⟨es, hes⟩
    cases hb : schema.type? r.typeId with
    | none => simp [entriesFor, hb, throw, throwThe, MonadExceptOf.throw] at hes
    | some base =>
      obtain ⟨layouts, hl⟩ := keptLayouts_ok hes hb
      refine ⟨base, layouts, hb, hl, fun hedge hnone t ht hst => ?_⟩
      have hd : (.out, r.outVertex) ∈ ends r := List.mem_cons_self
      obtain ⟨c, hp⟩ := exists_placed hes hb hl ht hst hd
      exact (exists_column_iff hd).mp ⟨c, hp.column⟩ hedge hnone
  · rintro ⟨base, layouts, hb, hl, hends⟩
    unfold entriesFor
    rw [hb]
    simp only [Outcome.bind_eq_ok, hl, Except.ok.injEq, exists_eq_left']
    refine Outcome.exists_mapM fun ⟨t, d, v⟩ hplace => ?_
    obtain ⟨⟨d', v'⟩, hend, hplace⟩ := List.mem_flatMap.mp hplace
    obtain ⟨t', ht, he⟩ := List.mem_map.mp hplace
    obtain ⟨hkept, hst⟩ := List.mem_filter.mp ht
    simp only [Prod.mk.injEq] at he
    obtain ⟨rfl, rfl, rfl⟩ := he
    have hcolumn : base.isEdgeLabel = true → r.inVertex = none → t'.multiplicity.isUnique d' = true := by
      intro hedge hnone
      -- there is no end but the first
      obtain rfl : d' = .out := by
        simp [ends, hnone] at hend
        exact hend.1
      exact hends hedge hnone t' hkept hst
    obtain ⟨c, hc⟩ := (exists_column_iff hend).mpr hcolumn
    exact ⟨_, Outcome.bind_eq_ok.mpr ⟨c, hc, rfl⟩⟩

/-- A relation of the category of its type can be written. -/
theorem exists_entriesFor (hs : schema.Sound) (hb : schema.type? r.typeId = some base)
    (hcategory : r.isEdge = base.isEdgeLabel) : ∃ es, entriesFor schema r = .ok es := by
  obtain ⟨xs, hxs, -⟩ := hs.indexesOver_ok (Schema.mem_of_type hb)
  have hl : keptLayouts schema base = .ok (base :: xs.filter fun t => t.status != .disabled) :=
    Outcome.bind_eq_ok.mpr ⟨xs, hxs, rfl⟩
  refine exists_entriesFor_iff.mpr ⟨base, _, hb, hl, fun hedge hnone => ?_⟩
  simp [Relation.isEdge, hnone, hedge] at hcategory

/-- What keeps the relations of a type is its own layout or that of an index over it. -/
theorem of_mem_keptLayouts (hs : schema.Sound) (hb : base ∈ schema.types) {layouts : List RelationType}
    (hl : keptLayouts schema base = .ok layouts) (ht : t ∈ layouts) :
    t ∈ schema.types ∧ (t = base ∨ t.IndexOver base) := by
  obtain ⟨indexes, hi, he⟩ := Outcome.bind_eq_ok.mp hl
  obtain rfl := Except.ok.inj he
  rcases List.mem_cons.mp ht with rfl | ht
  · exact ⟨hb, .inl rfl⟩
  · have hx := (List.mem_filter.mp ht).1
    exact ⟨(Schema.mem_indexesOver hi hx).1, .inr (hs.index hb hi hx)⟩

/-- A layout that keeps a relation is that of its type or of an index over it. -/
theorem Placed.layout (hs : schema.Sound) (hp : Placed schema r v base t d c) :
    t ∈ schema.types ∧ (t = base ∨ t.IndexOver base) := by
  obtain ⟨layouts, hl, ht⟩ := hp.kept
  exact of_mem_keptLayouts hs (Schema.mem_of_type hp.typed) hl ht

/-- A relation is kept in the layout of its type, if not in one of an index. -/
theorem Placed.eq_of_not_index (hs : schema.Sound) (hp : Placed schema r v base t d c)
    (hi : t.isIndex = false) : t = base := by
  rcases (hp.layout hs).2 with rfl | hover
  · rfl
  · unfold RelationType.isIndex at hi
    rw [hover.indexOf] at hi
    cases hi

theorem Placed.kind (hs : schema.Sound) (hp : Placed schema r v base t d c) : t.kind = base.kind := by
  rcases (hp.layout hs).2 with rfl | hi
  · rfl
  · exact hi.kind

theorem Placed.column_eq (hs : schema.Sound) (hp : Placed schema r v base t d c) :
    ∃ end? tail, directionByte? d = some end? ∧
      c = columnAt t end? (componentValues t d r v) tail :=
  Layout.column_eq (hp.kind hs) hp.column

/-! ## Stems tell layouts and ends apart -/

theorem typeStem_prefix_iff {u : RelationType} {end? : UInt8} {values : List (Option Value)}
    {tail : Bytes} : typeStem u <+: columnAt t end? values tail ↔ typeStem u = typeStem t := by
  have hl : (typeStem u).length = (typeStem t).length := by
    rw [length_typeStem, length_typeStem]
  unfold columnAt
  simp only [List.append_assoc]
  constructor
  · rintro ⟨more, hmore⟩
    exact (List.append_inj hmore hl).1
  · intro h
    rw [h]
    exact List.prefix_append _ _

/-- A column starts with one stem and one end only. -/
theorem stem_end_inj {u : RelationType} {b b' : UInt8} (h : typeStem t ++ [b] <+: c)
    (h' : typeStem u ++ [b'] <+: c) : typeStem t = typeStem u ∧ b = b' := by
  have hl : (typeStem u).length = (typeStem t).length := by
    rw [length_typeStem, length_typeStem]
  obtain ⟨more, rfl⟩ := h
  obtain ⟨more', hmore⟩ := h'
  simp only [List.append_assoc, List.cons_append, List.nil_append] at hmore
  obtain ⟨hstem, hrest⟩ := List.append_inj hmore hl
  exact ⟨hstem.symm, (List.cons.inj hrest).1.symm⟩

theorem stem_columnAt (t : RelationType) (end? : UInt8) (values : List (Option Value)) (tail : Bytes) :
    typeStem t ++ [end?] <+: columnAt t end? values tail := by
  unfold columnAt
  rw [List.append_assoc]
  exact List.prefix_append _ _

theorem typeStem_end_eq {u : RelationType} {e end? : UInt8} {values : List (Option Value)}
    {tail more : Bytes} (h : typeStem u ++ [e] ++ more <+: columnAt t end? values tail) :
    typeStem u = typeStem t ∧ e = end? :=
  stem_end_inj ((List.prefix_append _ more).trans h) (stem_columnAt t end? values tail)

/-- A column starts with the stem of its layout and its end. -/
theorem Placed.stem (hs : schema.Sound) (hp : Placed schema r v base t d c) :
    ∃ end?, directionByte? d = some end? ∧ typeStem t ++ [end?] <+: c := by
  obtain ⟨end?, tail, hd, rfl⟩ := hp.column_eq hs
  exact ⟨end?, hd, stem_columnAt t end? _ tail⟩

theorem directionByte?_inj {d e : Direction} {b : UInt8} (hd : directionByte? d = some b)
    (he : directionByte? e = some b) : d = e := by
  rw [← hd] at he
  revert he
  cases d <;> cases e <;> simp [directionByte?] at hd ⊢

/-- A column belongs to one end only. -/
theorem Placed.end_eq (hs : schema.Sound) (hp : Placed schema r v base t d c) {r' : Relation} {v' : VertexId}
    {base' t' : RelationType} {d' : Direction} (hp' : Placed schema r' v' base' t' d' c) : d = d' := by
  obtain ⟨end?, hd, hc⟩ := hp.stem hs
  obtain ⟨end', hd', hc'⟩ := hp'.stem hs
  obtain ⟨-, rfl⟩ := stem_end_inj hc hc'
  exact directionByte?_inj hd hd'

/-- A slice over a layout at an end holds columns of this layout at this end only. -/
theorem placed_eq (hs : schema.Sound) (hp : Placed schema r v base t d c) {u : RelationType}
    (hu : u ∈ schema.types) {e : Direction} {end? : UInt8} (he : directionByte? e = some end?)
    {k : KeyRestriction} {s : Slice} (hslice : typeSlice u e k = .ok s)
    (hc : s.contains c = true) : t = u ∧ d = e := by
  obtain ⟨b, tail, hb, rfl⟩ := hp.column_eq hs
  obtain ⟨hstem, rfl⟩ := typeStem_end_eq (stem_of_contains he hslice hc)
  exact ⟨hs.eq_of_id (hp.layout hs).1 hu (id_eq_of_typeStem hstem.symm), directionByte?_inj hb he⟩

/-- A slice over a layout at both ends holds all its columns. -/
theorem contains_bothEnds (hs : schema.Sound) (hp : Placed schema r v base t d c)
    {u : RelationType} (hu : u ∈ schema.types) {s : Slice}
    (hslice : typeSlice u .both .none = .ok s) : s.contains c = true ↔ t = u := by
  obtain ⟨b, tail, hb, rfl⟩ := hp.column_eq hs
  have hstem : stemSlice (typeStem u) = .ok s := hslice
  rw [contains_stemSlice hstem, typeStem_prefix_iff]
  constructor
  · intro h
    exact hs.eq_of_id (hp.layout hs).1 hu (id_eq_of_typeStem h.symm)
  · rintro rfl
    rfl

/-- The category takes in the relations of the type. -/
def ofCategory (category : Category) (t : RelationType) : Bool :=
  match category with
  | .property => t.isPropertyKey
  | .edge => t.isEdgeLabel
  | .relation => true

/-- A slice over a category holds the columns of the types of the category, and none of indexes. -/
theorem contains_categorySlice (hs : schema.Sound) (hp : Placed schema r v base t d c)
    {category : Category} {system : Bool} {s : Slice}
    (hslice : categorySlice category system = .ok s) :
    s.contains c = true ↔
      t.isIndex = false ∧ t.isSystem = system ∧ ofCategory category t = true := by
  obtain ⟨b, tail, hb, rfl⟩ := hp.column_eq hs
  have hvis : (if system then (0 : UInt8) else 1) = visibilityByte t ↔
      t.isIndex = false ∧ t.isSystem = system := by
    unfold visibilityByte
    cases t.isIndex <;> cases t.isSystem <;> cases system <;> decide
  have hkind (k : RelationKind) : kindByte k = kindByte t.kind ↔ t.kind = k := by
    cases k <;> cases t.kind <;> decide
  rw [contains_stemSlice hslice, ← and_assoc, ← hvis]
  cases category <;>
    simp [columnAt, typeStem, ofCategory, RelationType.isPropertyKey, RelationType.isEdgeLabel,
      List.cons_prefix_cons, hkind]

end

end RowGraph.Layout
