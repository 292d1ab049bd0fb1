import Mathlib.Data.List.Flatten
import Mathlib.Data.List.Nodup
import RowGraph.Proofs.CommittedAnswers
import RowGraph.Proofs.ConstraintOrder
import RowGraph.Proofs.PointExpansion

/-!
# How often reads hold a relation

The slices of a query hold a relation once for each of its columns that lie in them.  The reads of one type
have no column in common, and hold at most one column of a relation at each end (`readsOfType_once`), so
that a relation is held at most once for each end that is asked for and kept, and for each name that stands
for its type or an index over it (`times_compile_le`).  A relation that is selected is held just so often
(`times_compile_eq`), unless a name stands for an index.
-/

namespace RowGraph

open Layout (Placed rowKey directionByte?)

/-! ## The columns of a relation in a row -/

namespace Row

variable {row : Row} {r : Relation} {reads more : List PlannedRead} {c : Bytes}

/-- How often the slices of some reads hold a relation, their limits aside. -/
def times (row : Row) (r : Relation) (reads : List PlannedRead) : Nat :=
  (reads.flatMap fun read => row.relations (read.slice.withLimit none)).count r

/-- The columns of a slice under which a relation is stored. -/
def columnsOf (row : Row) (r : Relation) (s : Slice) : List Bytes :=
  (row.toList.filter fun b => s.contains b.1 && (Relation.ofStoredBytes b.2).toOption == some r).map (·.1)

@[simp] theorem times_nil : row.times r [] = 0 := rfl

@[simp] theorem times_append : row.times r (reads ++ more) = row.times r reads + row.times r more := by
  unfold times
  rw [List.flatMap_append, List.count_append]

theorem count_relations (row : Row) (r : Relation) (s : Slice) :
    (row.relations (s.withLimit none)).count r = (row.columnsOf r s).length := by
  unfold relations columnsOf
  rw [List.count_filterMap]
  simp only [read, Slice.withLimit, List.countP_map, List.countP_filter, List.length_map]
  rw [← List.countP_eq_length_filter]
  refine List.countP_congr fun b _ => ?_
  simp only [Function.comp_apply, Slice.contains, Bool.and_eq_true, beq_iff_eq]
  exact and_comm

theorem times_eq_zero_iff : row.times r reads = 0 ↔
    ∀ read ∈ reads, r ∉ row.relations (read.slice.withLimit none) := by
  unfold times
  simp only [List.count_eq_zero, List.mem_flatMap, not_exists, not_and]

theorem times_eq_length (row : Row) (r : Relation) (reads : List PlannedRead) :
    row.times r reads = (reads.flatMap fun read => row.columnsOf r read.slice).length := by
  unfold times
  rw [List.count_flatMap, List.length_flatMap]
  simp only [Function.comp_def, count_relations]

theorem mem_columnsOf {s : Slice} : c ∈ row.columnsOf r s ↔
    ∃ val, (c, val) ∈ row.toList ∧ s.contains c = true ∧ Relation.ofStoredBytes val = .ok r := by
  unfold columnsOf
  simp only [List.mem_map, List.mem_filter, Bool.and_eq_true, beq_iff_eq, Prod.exists, exists_and_right,
    exists_eq_right]
  refine exists_congr fun val => and_congr_right fun _ => and_congr_right fun _ => ?_
  exact ⟨Outcome.eq_ok_of_toOption, fun h => by rw [h]; rfl⟩

theorem nodup_columnsOf (row : Row) (r : Relation) (s : Slice) : (row.columnsOf r s).Nodup := by
  unfold columnsOf
  refine List.Pairwise.map _ ?_ (row.increasing.filter _)
  intro a b hlt he
  rw [he, SortedMap.compare_eq_iff.mpr rfl] at hlt
  cases hlt

/-- Slices that have no column in common hold no column of a relation twice. -/
theorem nodup_flatMap_columnsOf (row : Row) (r : Relation)
    (h : reads.Pairwise fun a b => a.slice.Apart b.slice) :
    (reads.flatMap fun read => row.columnsOf r read.slice).Nodup := by
  refine List.nodup_flatMap.mpr ⟨fun read _ => row.nodup_columnsOf r read.slice, h.imp fun hapart => ?_⟩
  intro c hc hc'
  obtain ⟨-, -, hin, -⟩ := mem_columnsOf.mp hc
  obtain ⟨-, -, hin', -⟩ := mem_columnsOf.mp hc'
  exact hapart c ⟨hin, hin'⟩

end Row

namespace Committed

variable {schema : Schema} {relations : List Relation} {table : Table} {v : VertexId} {r : Relation}
  {reads : List PlannedRead} {base : RelationType}

/-- The columns of a slice under which a committed relation is stored are its places there. -/
theorem mem_columnsOf (h : Committed schema relations table) (hr : r ∈ relations) {s : Slice} {c : Bytes} :
    c ∈ (table.row (rowKey v)).columnsOf r s ↔
      s.contains c = true ∧ ∃ base t d, Placed schema r v base t d c := by
  rw [Row.mem_columnsOf]
  constructor
  · rintro ⟨val, hm, hc, hval⟩
    obtain ⟨r', hr', rfl, hp⟩ := h.mem_row.mp hm
    obtain rfl := Except.ok.inj ((h.readable r' hr').symm.trans hval)
    exact ⟨hc, hp⟩
  · rintro ⟨hc, hp⟩
    exact ⟨_, h.mem_row.mpr ⟨r, hr, rfl, hp⟩, hc, h.readable r hr⟩

end Committed

/-! ## Reads without a column in common -/

/-- The ends that a query asks for, that a type keeps, and at which a vertex sits. -/
def RelationType.endsFor (t : RelationType) (d : Direction) (r : Relation) (v : VertexId) : List Direction :=
  Direction.ends.filter fun e => d.covers e && t.storesDirection e && r.sitsAt v e

theorem RelationType.mem_endsFor {t : RelationType} {d e : Direction} {r : Relation} {v : VertexId} :
    e ∈ t.endsFor d r v ↔
      d.covers e = true ∧ t.storesDirection e = true ∧ (e, v) ∈ Layout.ends r := by
  unfold endsFor
  rw [List.mem_filter, Layout.mem_ends, Bool.and_eq_true, Bool.and_eq_true]
  tauto

/-- The reads hold no column twice, and of the relations of a type at most one column for each end that is
asked for: that in one layout. -/
structure ReadsOnce (schema : Schema) (base : RelationType) (layout : Direction → RelationType) (d : Direction)
    (reads : List PlannedRead) : Prop where
  apart : reads.Pairwise fun a b => a.slice.Apart b.slice
  only : ∀ read ∈ reads, ∀ r v t e c, Placed schema r v base t e c → read.slice.contains c = true →
    d.covers e = true ∧ t = layout e

namespace ReadsOnce

variable {schema : Schema} {relations : List Relation} {table : Table} {v : VertexId} {r : Relation}
  {reads : List PlannedRead} {base : RelationType} {layout : Direction → RelationType} {d : Direction}

/-- The column of a relation at an end, if it has one there. -/
def columnAt? (base : RelationType) (layout : Direction → RelationType) (r : Relation) (v : VertexId)
    (e : Direction) : Option Bytes :=
  (Layout.column (layout e) base r e v).toOption

theorem columnAt?_eq {t : RelationType} {e : Direction} {c : Bytes} (h : Placed schema r v base t e c)
    (ht : t = layout e) : columnAt? base layout r v e = some c := by
  unfold columnAt?
  rw [← ht, h.column]
  rfl

/-- Such reads hold a committed relation at most once for each end. -/
theorem times_le (h : ReadsOnce schema base layout d reads) (hs : schema.Sound)
    (hstore : Committed schema relations table) (hr : r ∈ relations)
    (hbase : schema.type? r.typeId = some base) :
    (table.row (rowKey v)).times r reads ≤ (base.endsFor d r v).length := by
  have hnodup := Row.nodup_flatMap_columnsOf (table.row (rowKey v)) r h.apart
  rw [Row.times_eq_length]
  calc (reads.flatMap fun read => (table.row (rowKey v)).columnsOf r read.slice).length
      = ((reads.flatMap fun read => (table.row (rowKey v)).columnsOf r read.slice).map some).length :=
        (List.length_map ..).symm
    _ ≤ ((base.endsFor d r v).map (columnAt? base layout r v)).length :=
        List.Nodup.length_le_of_subset (hnodup.map (fun _ _ => Option.some.inj)) ?_
    _ = (base.endsFor d r v).length := List.length_map ..
  intro x hx
  obtain ⟨c, hc, rfl⟩ := List.mem_map.mp hx
  obtain ⟨read, hread, hc⟩ := List.mem_flatMap.mp hc
  obtain ⟨hin, base', t, e, hp⟩ := (hstore.mem_columnsOf hr).mp hc
  obtain rfl := Option.some.inj (hbase.symm.trans hp.typed)
  obtain ⟨hcov, ht⟩ := h.only read hread r v t e c hp hin
  have hst : base.storesDirection e = true := by
    rcases (hp.layout hs).2 with rfl | hover
    · exact hp.stored
    · exact hover.storesDirection e hp.stored
  exact List.mem_map.mpr
    ⟨e, RelationType.mem_endsFor.mpr ⟨hcov, hst, hp.sits⟩, columnAt?_eq hp ht⟩

/-- Such reads that hold a column of a committed relation at every end hold it once for each. -/
theorem times_eq (h : ReadsOnce schema base layout d reads) (hs : schema.Sound)
    (hstore : Committed schema relations table) (hr : r ∈ relations)
    (hbase : schema.type? r.typeId = some base)
    (hall : ∀ e ∈ base.endsFor d r v, ∃ read ∈ reads, ∃ t c, Placed schema r v base t e c ∧
      read.slice.contains c = true) :
    (table.row (rowKey v)).times r reads = (base.endsFor d r v).length := by
  have hcolumn : ∀ e ∈ base.endsFor d r v, ∃ read ∈ reads, ∃ c, Placed schema r v base (layout e) e c ∧
      read.slice.contains c = true ∧ columnAt? base layout r v e = some c := by
    intro e he
    obtain ⟨read, hread, t, c, hp, hc⟩ := hall e he
    obtain ⟨-, rfl⟩ := h.only read hread r v t e c hp hc
    exact ⟨read, hread, c, hp, hc, columnAt?_eq hp rfl⟩
  refine Nat.le_antisymm (h.times_le hs hstore hr hbase) ?_
  have hnodup : ((base.endsFor d r v).map (columnAt? base layout r v)).Nodup := by
    refine List.Nodup.map_on (fun e he e' he' hsame => ?_) (List.Nodup.filter _ (by decide))
    obtain ⟨-, -, c, hp, -, hc⟩ := hcolumn e he
    obtain ⟨-, -, c', hp', -, hc'⟩ := hcolumn e' he'
    rw [hc, hc'] at hsame
    obtain rfl := Option.some.inj hsame
    exact hp.end_eq hs hp'
  rw [Row.times_eq_length]
  calc (base.endsFor d r v).length
      = ((base.endsFor d r v).map (columnAt? base layout r v)).length := (List.length_map ..).symm
    _ ≤ ((reads.flatMap fun read => (table.row (rowKey v)).columnsOf r read.slice).map some).length :=
        List.Nodup.length_le_of_subset hnodup ?_
    _ = (reads.flatMap fun read => (table.row (rowKey v)).columnsOf r read.slice).length := List.length_map ..
  intro x hx
  obtain ⟨e, he, rfl⟩ := List.mem_map.mp hx
  obtain ⟨read, hread, c, hp, hin, hc⟩ := hcolumn e he
  rw [hc]
  exact List.mem_map_of_mem
    (List.mem_flatMap.mpr ⟨read, hread, (hstore.mem_columnsOf hr).mpr ⟨hin, base, _, e, hp⟩⟩)

end ReadsOnce


/-! ## The reads of a query -/

namespace Query

variable {s : Setting} {q : Query} {keys : KeyIntervals} {t base : RelationType}
  {d e : Direction} {reads : List PlannedRead} {read : PlannedRead} {r : Relation} {v : VertexId}
  {c : Bytes}

/-- The layout through which a type is read at an end. -/
def layoutAt (s : Setting) (q : Query) (keys : KeyIntervals) (t : RelationType) (e : Direction) : RelationType :=
  ((Candidate.select s.schema t e keys.intervals q.order).toOption.map Prod.fst).getD t

theorem layoutAt_over (hs : s.schema.Sound) (ht : t ∈ s.schema.types) (e : Direction) :
    layoutAt s q keys t e = t ∨ (layoutAt s q keys t e).IndexOver t := by
  unfold layoutAt
  cases h : Candidate.select s.schema t e keys.intervals q.order with
  | error _ => exact .inl rfl
  | ok chosen => exact Candidate.select_over hs ht h

theorem layoutAt_mem (ht : t ∈ s.schema.types) (e : Direction) : layoutAt s q keys t e ∈ s.schema.types := by
  unfold layoutAt
  cases h : Candidate.select s.schema t e keys.intervals q.order with
  | error _ => exact ht
  | ok chosen => exact Candidate.select_mem ht h

/-- The reads of a type at one end have no column in common, and go over its layout at that end. -/
theorem readsAtEnd_apart (hkeys : ∀ key, ∀ i ∈ keys.intervals.get? key, i.Sorted) {end? : UInt8}
    (hd : directionByte? d = some end?) (h : readsAtEnd s q keys t d = .ok reads) :
    (reads.Pairwise fun a b => a.slice.Apart b.slice) ∧ ∀ read ∈ reads, ∀ c, read.slice.contains c = true →
      Layout.typeStem (layoutAt s q keys t d) ++ [end?] <+: c := by
  obtain ⟨layout, score, hsel, hreads⟩ := readsAtEnd_eq_ok h
  have hlayout : layoutAt s q keys t d = layout := by
    unfold layoutAt
    rw [hsel]
    rfl
  refine ⟨ReadPlan.reads_apart (fun key values hi => ?_) hreads, fun read hread c hc => ?_⟩
  · refine List.Pairwise.imp (fun {a b} hlt he => ?_) (hkeys key (.points values) hi)
    rw [he, SortedMap.compare_eq_iff.mpr rfl] at hlt
    cases hlt
  · have hstem := ReadPlan.stem_of_mem_expand (p := planAt s q keys layout d score.supportsOrder) hd hreads hread hc
    rw [hlayout]
    exact (List.prefix_append _ _).trans hstem

/-- The reads of a type hold no column twice, and at each end columns of one layout only. -/
theorem readsOfType_once (hs : s.schema.Sound) (ht : t ∈ s.schema.types)
    (hkeys : ∀ key, ∀ i ∈ keys.intervals.get? key, i.Sorted) (h : readsOfType s q keys t d = .ok reads) :
    ∃ layout : Direction → RelationType, (∀ e, layout e = t ∨ (layout e).IndexOver t) ∧
      ∀ base, ReadsOnce s.schema base layout d reads := by
  rcases readsOfType_eq_ok h with ⟨rfl, -, -, slice, hslice, rfl⟩ | ⟨parts, hparts, rfl⟩
  · refine ⟨fun _ => t, fun _ => .inl rfl, fun base => ⟨List.pairwise_singleton .., ?_⟩⟩
    rintro read hread r v u e c hp hc
    obtain rfl := List.mem_singleton.mp hread
    exact ⟨rfl, (Layout.contains_bothEnds hs hp ht hslice).mp hc⟩
  · have hstems {e : Direction} (he : e ∈ Direction.ends) {part : List PlannedRead}
        (hpart : readsAtEnd s q keys t e = .ok part) : ∃ end?, directionByte? e = some end? ∧
          (part.Pairwise fun a b => a.slice.Apart b.slice) ∧
          ∀ read ∈ part, ∀ c, read.slice.contains c = true →
            Layout.typeStem (layoutAt s q keys t e) ++ [end?] <+: c := by
      obtain ⟨end?, hd⟩ := directionByte?_of_mem he
      exact ⟨end?, hd, readsAtEnd_apart hkeys hd hpart⟩
    refine ⟨layoutAt s q keys t, layoutAt_over hs ht, fun base => ⟨?_, ?_⟩⟩
    · refine List.pairwise_flatten.mpr ⟨fun part hpart => ?_, ?_⟩
      · obtain ⟨e, he, hpart⟩ := (Outcome.mem_of_mapM hparts).mp hpart
        obtain ⟨-, -, hapart, -⟩ := hstems (List.mem_filter.mp he).1 hpart
        exact hapart
      · have hends : (Direction.ends.filter d.covers).Pairwise fun e e' =>
            e ≠ e' ∧ e ∈ Direction.ends ∧ e' ∈ Direction.ends := by
          cases d <;> decide
        refine Outcome.pairwise_of_mapM hparts hends fun e e' ⟨hne, he, he'⟩ part part' hpart hpart' => ?_
        rintro a ha b hb c ⟨hca, hcb⟩
        obtain ⟨end?, hd, -, hstem⟩ := hstems he hpart
        obtain ⟨end', hd', -, hstem'⟩ := hstems he' hpart'
        -- what a part holds has the byte of its end, after a stem that is as long for every layout
        obtain ⟨-, rfl⟩ := Layout.stem_end_inj (hstem a ha c hca) (hstem' b hb c hcb)
        exact hne (Layout.directionByte?_inj hd hd')
    · rintro read hread r v u e c hp hc
      obtain ⟨part, hpart, hread⟩ := List.mem_flatten.mp hread
      obtain ⟨e', he', hpart⟩ := (Outcome.mem_of_mapM hparts).mp hpart
      obtain ⟨he', hcov⟩ := List.mem_filter.mp he'
      obtain ⟨end?, hd, -, hstem⟩ := hstems he' hpart
      obtain ⟨b, hb, hp'⟩ := hp.stem hs
      obtain ⟨hsame, rfl⟩ := Layout.stem_end_inj hp' (hstem read hread c hc)
      obtain rfl := Layout.directionByte?_inj hb hd
      refine ⟨hcov, hs.eq_of_id (hp.layout hs).1 ?_ (Layout.id_eq_of_typeStem hsame)⟩
      exact layoutAt_mem ht e


/-- The read of a query without type names holds no column twice, and columns of no index. -/
theorem untypedRead_once (hs : s.schema.Sound) {category : Category} {conditions : List Condition}
    (h : untypedRead s q d category conditions = .ok read) :
    ReadsOnce s.schema base (fun _ => base) .both [read] := by
  refine ⟨List.pairwise_singleton .., fun read' hread r v t e c hp hc => ?_⟩
  obtain rfl := List.mem_singleton.mp hread
  obtain ⟨slice, hslice, ⟨limit, -, he⟩, -⟩ := untypedRead_eq_ok h
  rw [he, ReadPlan.contains_withLimit] at hc
  exact ⟨rfl, hp.eq_of_not_index hs ((Layout.contains_categorySlice hs hp hslice).mp hc).1⟩

end Query

/-- The number of the type whose relations are kept under a type: of an index that of its base. -/
def RelationType.baseId (t : RelationType) : TypeId := t.indexOf.getD t.id

theorem RelationType.baseId_of_not_index {t : RelationType} (h : t.isIndex = false) : t.baseId = t.id := by
  unfold baseId
  rw [Option.isNone_iff_eq_none.mp (Option.isSome_eq_false_iff.mp h), Option.getD_none]

/-- Types that have a layout in common are kept under the same type. -/
theorem Schema.Sound.baseId_eq {schema : Schema} (hs : schema.Sound) {t base layout : RelationType}
    (ht : t ∈ schema.types) (hl : layout = t ∨ layout.IndexOver t) (hb : base ∈ schema.types)
    (hbi : base.isIndex = false) (hl' : layout = base ∨ layout.IndexOver base) : t.baseId = base.id := by
  rcases hl' with rfl | hl'
  · rcases hl with rfl | hl
    · exact RelationType.baseId_of_not_index hbi
    · rw [RelationType.isIndex, hl.indexOf] at hbi
      cases hbi
  · rcases hl with rfl | hl
    · rw [RelationType.baseId, hl'.indexOf, Option.getD_some]
    · obtain rfl := hs.eq_of_id ht hb (Option.some.inj (hl.indexOf.symm.trans hl'.indexOf))
      exact RelationType.baseId_of_not_index hbi

namespace Query

/-- How often a query asks for a relation at a vertex: for every name that stands for its type or an index
over it once at each end that is asked for and kept, without names once at each end that is kept. -/
def timesAsked (schema : Schema) (q : Query) (v : VertexId) (r : Relation) : Nat :=
  match schema.type? r.typeId with
  | none => 0
  | some base =>
    if q.types.isEmpty then (base.endsFor .both r v).length
    else (q.types.filterMap schema.named?).countP (fun t => t.baseId == base.id) *
      (base.endsFor q.direction r v).length

section

variable {s : Setting} {q : Query} {keys : KeyIntervals} {t base : RelationType} {d e : Direction}
  {reads : List PlannedRead} {r : Relation} {v : VertexId} {relations : List Relation} {table : Table}
  {category : Category} {names : List String} {types : List TypeId}

/-- The reads of a type hold relations of other types nowhere. -/
theorem times_readsOfType_of_ne (hs : s.schema.Sound) (hkeys : ∀ key, ∀ i ∈ keys.intervals.get? key, i.Sorted)
    (hstore : Committed s.schema relations table) (hbase : s.schema.type? r.typeId = some base)
    (hbi : base.isIndex = false) (ht : t ∈ s.schema.types) (hne : t.baseId ≠ base.id)
    (h : readsOfType s q keys t d = .ok reads) : (table.row (rowKey v)).times r reads = 0 := by
  refine Row.times_eq_zero_iff.mpr fun read hread hmem => hne ?_
  obtain ⟨-, base', u, e, c, hp, hc⟩ := hstore.mem_relations.mp hmem
  obtain rfl := Option.some.inj (hbase.symm.trans hp.typed)
  obtain ⟨layout, hover, honce⟩ := readsOfType_once hs ht hkeys h
  obtain ⟨-, rfl⟩ := (honce base).only read hread r v u e c hp hc
  exact hs.baseId_eq ht (hover e) (Schema.mem_of_type hbase) hbi (hp.layout hs).2

theorem length_endsFor_le {f : Direction} (h : ∀ e, f.covers e = true → d.covers e = true) :
    (base.endsFor f r v).length ≤ (base.endsFor d r v).length := by
  refine (List.monotone_filter_right Direction.ends fun e he => ?_).length_le
  simp only [Bool.and_eq_true] at he ⊢
  exact ⟨⟨h e he.1.1, he.1.2⟩, he.2⟩

/-- The reads of a query with type names hold a relation at most once for every name of its type and every
end that is asked for. -/
theorem times_readsOfTypes_le (hs : s.schema.Sound) (hkeys : ∀ key, ∀ i ∈ keys.intervals.get? key, i.Sorted)
    (hstore : Committed s.schema relations table) (hr : r ∈ relations)
    (hbase : s.schema.type? r.typeId = some base) (hbi : base.isIndex = false)
    (h : readsOfTypes s q keys d category names = .ok (types, reads)) :
    (table.row (rowKey v)).times r reads ≤
      (names.filterMap s.schema.named?).countP (fun t => t.baseId == base.id) * (base.endsFor d r v).length := by
  induction names generalizing category types reads with
  | nil =>
    obtain ⟨rfl, rfl⟩ := Prod.mk.inj (Except.ok.inj h)
    simp
  | cons name names ih =>
    rcases readsOfTypes_cons_eq_ok.mp h with
      ⟨hnone, h⟩ | ⟨t, category', ht, ⟨-, h⟩ | ⟨f, part, types', more, hadm, hpart, hmore, rfl, rfl⟩⟩
    · rw [List.filterMap_cons, hnone]
      exact ih h
    all_goals rw [List.filterMap_cons, ht, List.countP_cons, Nat.add_mul]
    · exact Nat.le_add_right_of_le (ih h)
    · rw [Row.times_append, Nat.add_comm]
      refine Nat.add_le_add (ih hmore) ?_
      have htm := Schema.mem_of_named ht
      by_cases hid : t.baseId = base.id
      · obtain ⟨layout, -, honce⟩ := readsOfType_once hs htm hkeys hpart
        rw [if_pos (beq_iff_eq.mpr hid), Nat.one_mul]
        exact Nat.le_trans ((honce base).times_le hs hstore hr hbase)
          (length_endsFor_le fun e he => covers_of_admitted hadm he)
      · rw [times_readsOfType_of_ne hs hkeys hstore hbase hbi htm hid hpart]
        exact Nat.zero_le _

theorem out_of_mem_endsFor (hfit : r.Fits s.schema base) (he : e ∈ base.endsFor d r v)
    (hp : base.isPropertyKey = true) : e = .out := by
  obtain ⟨-, -, hend⟩ := RelationType.mem_endsFor.mp he
  obtain ⟨he, hsit⟩ := Layout.mem_ends.mp hend
  have hnone : r.isEdge = false := by rw [hfit.category, ← Bool.not_eq_true', ← RelationType.isPropertyKey_eq, hp]
  unfold Relation.isEdge at hnone
  cases e <;> simp_all [Direction.ends, Relation.sitsAt]

/-- A named type is read at every end that is asked for and kept. -/
theorem read_of_mem_endsFor {category' : Category} {end? : Option Direction} (hfit : r.Fits s.schema base)
    (hadm : q.admitted base d category = .ok (category', end?)) (he : e ∈ base.endsFor d r v) :
    ∃ f, end? = some f ∧ f.covers e = true := by
  obtain ⟨hcov, hst, hend⟩ := RelationType.mem_endsFor.mp he
  exact admitted_of_covers hadm (Layout.mem_ends.mp hend).1 hcov hst (out_of_mem_endsFor hfit he)

/-- The reads of a named type hold its relations whose values are inside the intervals once at each end that
is asked for and kept. -/
theorem times_readsOfType_eq (hs : s.schema.Sound) (hkeys : ∀ key, ∀ i ∈ keys.intervals.get? key, i.Sorted)
    (hstore : Committed s.schema relations table) (hr : r ∈ relations) (hfit : r.Fits s.schema base)
    (hin : keys.Inside v r) {category' : Category} {f : Direction}
    (hadm : q.admitted base d category = .ok (category', some f))
    (h : readsOfType s q keys base f = .ok reads) :
    (table.row (rowKey v)).times r reads = (base.endsFor d r v).length := by
  obtain ⟨es, hes⟩ := hstore.writable r hr
  obtain ⟨layout, -, honce⟩ := readsOfType_once hs (Schema.mem_of_type hfit.typed) hkeys h
  have hsame : base.endsFor d r v = base.endsFor f r v := by
    refine List.filter_congr fun e he => Bool.eq_iff_iff.mpr ?_
    simp only [Bool.and_eq_true, and_assoc]
    refine and_congr_left fun ⟨hst, hsit⟩ => ⟨fun hd => ?_, covers_of_admitted hadm⟩
    have hmem : e ∈ base.endsFor d r v :=
      RelationType.mem_endsFor.mpr ⟨hd, hst, Layout.mem_ends.mpr ⟨he, hsit⟩⟩
    obtain ⟨f', hf', hcov⟩ := read_of_mem_endsFor hfit hadm hmem
    rwa [Option.some.inj hf']
  rw [hsame]
  refine (honce base).times_eq hs hstore hr hfit.typed fun e he => ?_
  obtain ⟨hcov, hst, hend⟩ := RelationType.mem_endsFor.mp he
  exact readsOfType_complete hs h hfit.typed hes hcov hst hend hin

/-- If no name stands for an index, the reads hold a relation whose values are inside the intervals just so
often. -/
theorem times_readsOfTypes_eq (hs : s.schema.Sound) (hkeys : ∀ key, ∀ i ∈ keys.intervals.get? key, i.Sorted)
    (hstore : Committed s.schema relations table) (hr : r ∈ relations) (hfit : r.Fits s.schema base)
    (hbi : base.isIndex = false) (hnames : NamesNoIndex s.schema names) (hin : keys.Inside v r)
    (h : readsOfTypes s q keys d category names = .ok (types, reads)) :
    (table.row (rowKey v)).times r reads =
      (names.filterMap s.schema.named?).countP (fun t => t.baseId == base.id) * (base.endsFor d r v).length := by
  induction names generalizing category types reads with
  | nil =>
    obtain ⟨rfl, rfl⟩ := Prod.mk.inj (Except.ok.inj h)
    simp
  | cons name names ih =>
    have hrest : NamesNoIndex s.schema names := fun n hn => hnames n (List.mem_cons_of_mem _ hn)
    rcases readsOfTypes_cons_eq_ok.mp h with ⟨hnone, h⟩ | ⟨t, category', ht, hread⟩
    · rw [List.filterMap_cons, hnone]
      exact ih hrest h
    have htm := Schema.mem_of_named ht
    have hbase := RelationType.baseId_of_not_index (hnames name List.mem_cons_self t ht)
    rw [List.filterMap_cons, ht, List.countP_cons, hbase]
    by_cases hid : t.id = base.id
    · obtain rfl := hs.eq_of_id htm (Schema.mem_of_type hfit.typed) hid
      rw [if_pos (beq_self_eq_true _), Nat.add_mul, Nat.one_mul]
      rcases hread with ⟨hadm, h⟩ | ⟨f, part, types', more, hadm, hpart, hmore, rfl, rfl⟩
      · have hnone : t.endsFor d r v = [] := List.eq_nil_iff_forall_not_mem.mpr fun e he => by
          obtain ⟨f, hf, -⟩ := read_of_mem_endsFor hfit hadm he
          cases hf
        rw [ih hrest h, hnone, List.length_nil, Nat.mul_zero]
      · rw [Row.times_append, ih hrest hmore, times_readsOfType_eq hs hkeys hstore hr hfit hin hadm hpart,
          Nat.add_comm]
    · rw [if_neg (by simpa using hid), Nat.add_zero]
      rcases hread with ⟨-, h⟩ | ⟨f, part, types', more, -, hpart, hmore, rfl, rfl⟩
      · exact ih hrest h
      · have hne : t.baseId ≠ base.id := by rwa [hbase]
        rw [Row.times_append, ih hrest hmore,
          times_readsOfType_of_ne hs hkeys hstore hfit.typed hbi htm hne hpart, Nat.zero_add]

/-- A relation that is no loop is asked for once, if no two names stand for one type or for indexes over it. -/
theorem timesAsked_le_one {schema : Schema}
    (hnames : ((q.types.filterMap schema.named?).map RelationType.baseId).Nodup)
    (hloop : r.inVertex ≠ some r.outVertex) : q.timesAsked schema v r ≤ 1 := by
  -- no vertex sits at both ends
  have hends (t : RelationType) (d : Direction) : (t.endsFor d r v).length ≤ 1 := by
    unfold RelationType.endsFor Direction.ends
    have hone : r.sitsAt v .out = true → r.sitsAt v .into = false := by
      intro hout
      obtain rfl : r.outVertex = v := beq_iff_eq.mp hout
      exact beq_false_of_ne hloop
    cases hout : r.sitsAt v .out with
    | false =>
      simp only [List.filter_cons, hout, Bool.and_false, Bool.false_eq_true, if_false]
      split <;> simp
    | true =>
      simp only [List.filter_cons, hone hout, Bool.and_false, Bool.false_eq_true, if_false]
      split <;> simp
  unfold timesAsked
  split
  · exact Nat.zero_le 1
  · rename_i base _
    split
    · exact hends base .both
    · have hcount : (q.types.filterMap schema.named?).countP (fun t => t.baseId == base.id) ≤ 1 := by
        have hmap := List.nodup_iff_count_le_one.mp hnames base.id
        rwa [List.count, List.countP_map] at hmap
      exact Nat.le_trans (Nat.mul_le_mul hcount (hends base q.direction)) (Nat.le_refl 1)

/-! ### Compiled queries -/

variable {compiled : CompiledQuery}

theorem timesAsked_untyped (htypes : q.types = []) (hbase : s.schema.type? r.typeId = some base) :
    q.timesAsked s.schema v r = (base.endsFor .both r v).length := by
  unfold timesAsked
  rw [hbase, htypes]
  rfl

theorem timesAsked_typed (htypes : q.types ≠ []) (hbase : s.schema.type? r.typeId = some base) :
    q.timesAsked s.schema v r = (q.types.filterMap s.schema.named?).countP (fun t => t.baseId == base.id) *
      (base.endsFor q.direction r v).length := by
  unfold timesAsked
  rw [hbase]
  dsimp only
  rw [if_neg (by rwa [List.isEmpty_iff])]

/-- The reads of a compiled query hold a relation at most as often as the query asks for it. -/
theorem times_compile_le (hs : s.schema.Sound) (hstore : Committed s.schema relations table) (hr : r ∈ relations)
    (h : q.compile s category = .ok compiled) :
    (table.row (rowKey v)).times r compiled.reads ≤ q.timesAsked s.schema v r := by
  obtain ⟨base, hfit, hbi⟩ := hstore.fits r hr
  rcases compile_eq_ok h with ⟨rfl, -⟩ | ⟨d, conditions, hwanted, -, hplan⟩
  · exact Nat.zero_le _
  rcases plan_eq_ok hplan with
    ⟨htypes, only, honly, rfl⟩ | ⟨-, -, rfl⟩ | ⟨htypes, types, reads, hreads, he⟩
  · rw [timesAsked_untyped htypes hfit.typed]
    exact (untypedRead_once hs honly).times_le hs hstore hr hfit.typed
  · exact Nat.zero_le _
  · rcases he with ⟨-, rfl⟩ | ⟨-, rfl⟩
    · exact Nat.zero_le _
    · rw [timesAsked_typed htypes hfit.typed]
      refine Nat.le_trans (times_readsOfTypes_le hs (fun _ => KeyIntervals.sorted_ofConditions) hstore hr
        hfit.typed hbi hreads) (Nat.mul_le_mul_left _ (length_endsFor_le fun e he => ?_))
      rcases wantedEnd?_eq hwanted with rfl | ⟨-, rfl, hd⟩
      · exact he
      · obtain rfl : Direction.out = e := by simpa [Direction.covers] using he
        cases hq : q.direction <;> simp_all [Direction.covers]

/-- If no name stands for an index, the reads hold a relation that is selected just as often as the query asks
for it. -/
theorem times_compile_eq (hs : s.schema.Sound) (hstore : Committed s.schema relations table) (hr : r ∈ relations)
    (hnames : NamesNoIndex s.schema q.types) (hlimit : q.limit ≠ 0) (h : q.compile s category = .ok compiled)
    (hsel : q.Selects s.schema category v r) :
    (table.row (rowKey v)).times r compiled.reads = q.timesAsked s.schema v r := by
  obtain ⟨base, hfit, hbi⟩ := hstore.fits r hr
  obtain ⟨es, hes⟩ := hstore.writable r hr
  obtain ⟨read, hread, -⟩ := finds_of_selects hs hnames h hlimit hfit hbi hes hsel
  obtain ⟨base', htyped, hcat, hconstraints, hlead, hplace⟩ := hsel
  obtain rfl := Option.some.inj (hfit.typed.symm.trans htyped)
  rcases compile_eq_ok h with ⟨rfl, -⟩ | ⟨d, conditions, hwanted, hnormal, hplan⟩
  · cases hread
  rcases plan_eq_ok hplan with
    ⟨htypes, only, honly, rfl⟩ | ⟨-, -, rfl⟩ | ⟨htypes, types, reads, hreads, he⟩
  · rw [timesAsked_untyped htypes hfit.typed]
    rw [if_pos htypes] at hplace
    obtain ⟨slice, hslice, ⟨limit, -, hwith⟩, -⟩ := untypedRead_eq_ok honly
    obtain ⟨layouts, hl⟩ := Layout.keptLayouts_ok hes hfit.typed
    refine (untypedRead_once hs honly).times_eq hs hstore hr hfit.typed fun e he => ?_
    obtain ⟨-, hst, hend⟩ := RelationType.mem_endsFor.mp he
    obtain ⟨c, hp⟩ := Layout.exists_placed hes hfit.typed hl (Layout.mem_keptLayouts_self hl) hst hend
    refine ⟨only, List.mem_singleton_self _, base, c, hp, ?_⟩
    rw [hwith, ReadPlan.contains_withLimit, Layout.contains_categorySlice hs hp hslice,
      ← inCategory_iff hfit.category]
    exact ⟨hbi, hplace.1, hcat⟩
  · cases hread
  · rcases he with ⟨-, rfl⟩ | ⟨-, rfl⟩
    · cases hread
    · have hconds := (Constraint.normalize_some hnormal).mpr hconstraints
      have hin := KeyIntervals.inside_ofConditions (kindsFit_of_fits hs hfit v)
        (Constraint.normalize_typed hs hnormal) hconds hlead
      have hends : base.endsFor d r v = base.endsFor q.direction r v := by
        refine List.filter_congr fun e he => Bool.eq_iff_iff.mpr ?_
        simp only [Bool.and_eq_true, and_assoc]
        exact and_congr_left fun ⟨_, hsit⟩ => covers_wanted hwanted hcat he hsit
      rw [timesAsked_typed htypes hfit.typed, ← hends]
      exact times_readsOfTypes_eq hs (fun _ => KeyIntervals.sorted_ofConditions) hstore hr hfit hbi hnames hin hreads

/-- What is selected satisfies the condition of the compiled query. -/
theorem evaluate_of_selects (hs : s.schema.Sound) (hstore : Committed s.schema relations table)
    (hr : r ∈ relations) (hnames : NamesNoIndex s.schema q.types) (hkeys : NamesDistinctKeys s.schema q.types)
    (hlimit : q.limit ≠ 0) (h : q.compile s category = .ok compiled) (hsel : q.Selects s.schema category v r) :
    (compiled.bind v q.adjacent).evaluate r v = true := by
  obtain ⟨base, hfit, hbi⟩ := hstore.fits r hr
  obtain ⟨es, hes⟩ := hstore.writable r hr
  obtain ⟨read, hread, ⟨base', layout, e, c, hp, hc⟩, hfitted | hcond⟩ :=
    finds_of_selects hs hnames h hlimit hfit hbi hes hsel
  · obtain rfl := Option.some.inj (hfit.typed.symm.trans hp.typed)
    exact fitted_satisfies hs hnames hkeys h hread hfitted hfit hbi hp hc
  · exact hcond

end

end Query

end RowGraph
