import RowGraph.Proofs.BestLayouts
import RowGraph.Proofs.Entries
import RowGraph.Proofs.Expansion
import RowGraph.Plan.Compile

/-!
# Which layout answers

A type is read through its own layout or through an enabled index over it, and either keeps every
relation of the type at the end that is read.  So the reads of a type at an end hold a column of every
relation inside the intervals (`readsAtEnd_complete`), columns of relations of that type only
(`readsAtEnd_sound`), and where they are fitted only of relations inside the intervals
(`readsAtEnd_fitted`).
-/

namespace RowGraph

open Layout (Placed directionByte? columnAt componentValues)

namespace Candidate

variable {schema : Schema} {t layout : RelationType} {d : Direction}
  {intervals : SortedMap TypeId Interval} {order : ResultOrder} {score : CandidateScore}

/-- The layout that is chosen is the type's own or an enabled index, and keeps the end. -/
theorem select_eq_ok (h : select schema t d intervals order = .ok (layout, score)) :
    (layout = t ∨ ∃ xs, schema.indexesOver t = .ok xs ∧ layout ∈ xs) ∧
      (layout.id = t.id ∨ layout.status = .enabled) ∧ layout.storesDirection d = true ∧
      score = Candidate.score layout d intervals order := by
  obtain ⟨candidates, hall, -⟩ := Outcome.bind_eq_ok.mp h
  obtain ⟨indexes, hindexes, he⟩ := Outcome.bind_eq_ok.mp hall
  obtain rfl := Except.ok.inj he
  obtain ⟨hbest, hscore⟩ := best_of_select hall h
  obtain ⟨hkept, henabled⟩ := hbest.eligible
  refine ⟨?_, Decidable.or_iff_not_imp_left.mpr henabled, ?_, hscore⟩
  · rcases List.mem_cons.mp hbest.mem with hlayout | hlayout
    · exact .inl hlayout
    · exact .inr ⟨indexes, hindexes, hlayout⟩
  · simpa [RelationType.storesDirection, Direction.covers] using hkept

theorem select_mem (ht : t ∈ schema.types)
    (h : select schema t d intervals order = .ok (layout, score)) : layout ∈ schema.types := by
  rcases (select_eq_ok h).1 with rfl | ⟨xs, hxs, hm⟩
  · exact ht
  · exact (Schema.mem_indexesOver hxs hm).1

/-- The layout that is chosen is kept for the relations of the type. -/
theorem select_kept (hs : schema.Sound) (ht : t ∈ schema.types)
    (h : select schema t d intervals order = .ok (layout, score)) {layouts : List RelationType}
    (hl : Layout.keptLayouts schema t = .ok layouts) : layout ∈ layouts := by
  obtain ⟨indexes, hindexes, he⟩ := Outcome.bind_eq_ok.mp hl
  obtain rfl := Except.ok.inj he
  obtain ⟨hwhich, hstatus, -⟩ := select_eq_ok h
  rcases hwhich with rfl | ⟨xs, hxs, hm⟩
  · exact List.mem_cons_self
  · obtain rfl := Except.ok.inj (hxs.symm.trans hindexes)
    rcases hstatus with hid | hen
    · rw [hs.eq_of_id (Schema.mem_indexesOver hxs hm).1 ht hid]
      exact List.mem_cons_self
    · exact List.mem_cons_of_mem _ (List.mem_filter.mpr ⟨hm, by simp [hen]⟩)

/-- The layout that is chosen is the type's own or that of an index over it. -/
theorem select_over (hs : schema.Sound) (ht : t ∈ schema.types)
    (h : select schema t d intervals order = .ok (layout, score)) :
    layout = t ∨ layout.IndexOver t := by
  rcases (select_eq_ok h).1 with rfl | ⟨xs, hxs, hm⟩
  · exact .inl rfl
  · exact .inr (hs.index ht hxs hm)

/-- If no sort key repeats a key, no key of a layout comes twice. -/
theorem nodup_extendedSortKey (hs : schema.SoundType t) (hk : t.sortKey.Nodup) (d : Direction) :
    (extendedSortKey t d).Nodup := by
  have hno (k : ImplicitKey) : k.typeId ∉ t.sortKey := by
    intro hm
    have := hs.sortKey _ hm
    cases k <;> cases this
  unfold extendedSortKey
  split
  · exact hk
  · have ha := hno .adjacent
    have hi := hno .id
    split <;> split <;> simp_all [List.nodup_append, ImplicitKey.typeId] <;> grind

end Candidate

/-- No layout through which relations of the type are read repeats a key in its sort key. -/
def RelationType.DistinctKeys (schema : Schema) (t : RelationType) : Prop :=
  ∀ layout ∈ schema.types, (layout = t ∨ layout.IndexOver t) → layout.sortKey.Nodup

namespace Query

variable {s : Setting} {q : Query} {keys : KeyIntervals} {t : RelationType} {d : Direction}
  {reads : List PlannedRead} {r : Relation} {v : VertexId}

/-- The plan for the reads of a layout at an end. -/
def planAt (s : Setting) (q : Query) (keys : KeyIntervals) (layout : RelationType) (d : Direction)
    (supportsOrder : Bool) : ReadPlan where
  layout := layout
  direction := d
  intervals := keys.intervals
  limit := q.limit?
  fitted := keys.fitted
  supportsOrder := supportsOrder
  hardMax := s.hardMax
  modified := s.modified

theorem readsAtEnd_eq_ok (h : readsAtEnd s q keys t d = .ok reads) :
    ∃ layout score, Candidate.select s.schema t d keys.intervals q.order = .ok (layout, score) ∧
      (planAt s q keys layout d score.supportsOrder).reads = .ok reads := by
  obtain ⟨⟨layout, score⟩, hsel, h⟩ := Outcome.bind_eq_ok.mp h
  exact ⟨layout, score, hsel, h⟩

/-- The reads of a type at an end hold a column of every relation inside the intervals. -/
theorem readsAtEnd_complete (hs : s.schema.Sound) (h : readsAtEnd s q keys t d = .ok reads)
    (hr : s.schema.type? r.typeId = some t) {es : List (Bytes × Entry)}
    (hes : Layout.entriesFor s.schema r = .ok es) (hd : (d, v) ∈ Layout.ends r)
    (hin : keys.Inside v r) :
    ∃ read ∈ reads, ∃ layout c, Placed s.schema r v t layout d c ∧ read.slice.contains c = true := by
  obtain ⟨layout, score, hsel, hreads⟩ := readsAtEnd_eq_ok h
  have ht : t ∈ s.schema.types := Schema.mem_of_type hr
  obtain ⟨layouts, hl⟩ := Layout.keptLayouts_ok hes hr
  obtain ⟨c, hp⟩ := Layout.exists_placed hes hr hl (Candidate.select_kept hs ht hsel hl)
    (Candidate.select_eq_ok hsel).2.2.1 hd
  obtain ⟨end?, tail, hend, hc⟩ := hp.column_eq hs
  obtain ⟨read, hread, hcon⟩ := (ReadPlan.expand_contains (p := planAt s q keys layout d _)
    hend hreads (rfl : ([] : List (Option Value)).length = 0) (List.length_map ..) tail).mpr
    ⟨rfl, ReadPlan.walks_of_inside hin (Candidate.extendedSortKey layout d)⟩
  exact ⟨read, hread, layout, c, hp, by rw [hc]; exact hcon⟩

section

variable {base layout : RelationType} {e : Direction} {c : Bytes} {read : PlannedRead}

/-- What the reads of a type at an end hold belongs to relations of the type kept at that end. -/
theorem readsAtEnd_sound (hs : s.schema.Sound) (ht : t ∈ s.schema.types) (hti : t.isIndex = false)
    {end? : UInt8} (hd : directionByte? d = some end?) (h : readsAtEnd s q keys t d = .ok reads)
    (hr : read ∈ reads) (hbi : base.isIndex = false) (hp : Placed s.schema r v base layout e c)
    (hc : read.slice.contains c = true) : base = t ∧ e = d := by
  obtain ⟨chosen, score, hsel, hreads⟩ := readsAtEnd_eq_ok h
  obtain ⟨restriction, slice, _, hslice, he, -⟩ := ReadPlan.expand_mem hreads hr
  rw [he, ReadPlan.contains_withLimit] at hc
  obtain ⟨rfl, rfl⟩ := Layout.placed_eq hs hp (Candidate.select_mem ht hsel) hd hslice hc
  exact ⟨hs.eq_of_layout ht hti (Candidate.select_over hs ht hsel) (Schema.mem_of_type hp.typed) hbi
    (hp.layout hs).2, rfl⟩

/-- What a fitted read of a type at an end holds is inside all intervals, and these say all. -/
theorem readsAtEnd_fitted (hs : s.schema.Sound) (ht : t ∈ s.schema.types)
    (hk : t.DistinctKeys s.schema) {end? : UInt8} (hd : directionByte? d = some end?)
    (h : readsAtEnd s q keys t d = .ok reads) (hr : read ∈ reads)
    (hp : Placed s.schema r v base layout e c) (hc : read.slice.contains c = true)
    (hf : read.fitted = true) : keys.fitted = true ∧ keys.Inside v r := by
  obtain ⟨chosen, score, hsel, hreads⟩ := readsAtEnd_eq_ok h
  obtain ⟨restriction, slice, _, hslice, he, -⟩ := ReadPlan.expand_mem hreads hr
  have hc' := hc
  rw [he, ReadPlan.contains_withLimit] at hc'
  have hm := Candidate.select_mem ht hsel
  obtain ⟨rfl, rfl⟩ := Layout.placed_eq hs hp hm hd hslice hc'
  obtain ⟨b, tail, hb, hcol⟩ := hp.column_eq hs
  rw [hcol] at hc
  have hexp : (planAt s q keys layout e score.supportsOrder).expand ([] : List Value).length [] none
      (Candidate.extendedSortKey layout e) = .ok reads := hreads
  have hnd := Candidate.nodup_extendedSortKey (hs.types layout hm)
    (hk layout hm (Candidate.select_over hs ht hsel)) e
  have hw : ReadPlan.Walked keys.intervals (fun key => r.valueOf key v) [] := by simp [ReadPlan.Walked]
  exact ReadPlan.expand_fitted hb hexp rfl hnd hw hr hf hc

end

end Query

end RowGraph
