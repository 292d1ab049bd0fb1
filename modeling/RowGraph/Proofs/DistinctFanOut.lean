import Mathlib.Data.Finset.Card
import RowGraph.Proofs.AdjacentVertices
import RowGraph.Proofs.RepeatedReads

/-!
# Distinct answers of partitioned vertices

Every representative of a partitioned vertex is cut at the limit before the relations that come again are
dropped, and yet there are as many relations left as there could be (`merged_distinct`).  A representative whose
relations have ids of their own is asked for no column twice by types with names of their own at one end
(`readsOfTypes_apart`), and so answers no id twice (`nodup_allAt`).  If it was cut it has as many ids as are
wanted, and if none was cut all ids are there (`idCount_of_bestParts`).
-/

namespace RowGraph

open Layout (typeStem directionByte?)

/-! ## Rows without an id twice -/

namespace Row

/-- A column of the row under a layout at an end holds a relation. -/
def HoldsUnder (row : Row) (t : RelationType) (end? : UInt8) (c : Bytes) (r : Relation) : Prop :=
  ∃ value, (c, value) ∈ row.toList ∧ typeStem t ++ [end?] <+: c ∧ Relation.ofStoredBytes value = .ok r

/-- At one end of the row relations have ids of their own.  Only different layouts of one type hold a relation
each. -/
def DistinctIds (schema : Schema) (row : Row) : Prop :=
  ∀ t ∈ schema.types, ∀ u ∈ schema.types, ∀ end? c c' r r',
    row.HoldsUnder t end? c r → row.HoldsUnder u end? c' r' → r.id = r'.id →
      c = c' ∨ t ≠ u ∧ t.baseId = u.baseId

variable {schema : Schema} {row : Row} {reads : List PlannedRead} {end? : UInt8}

/-- What a slice under one layout holds has ids of its own. -/
theorem DistinctIds.pairwise_relations (h : row.DistinctIds schema) {t : RelationType} (ht : t ∈ schema.types)
    {s : Slice} (hs : ∀ c, s.contains c = true → typeStem t ++ [end?] <+: c) :
    (row.relations (s.withLimit none)).Pairwise (·.id ≠ ·.id) := by
  have hcells : (row.toList.filter fun b => s.contains b.1).Pairwise fun a b => ∀ r r',
      Relation.ofStoredBytes a.2 = .ok r → Relation.ofStoredBytes b.2 = .ok r' → r.id ≠ r'.id := by
    refine (row.increasing.filter _).imp_of_mem fun {a b} ha hb hlt r r' hr hr' hid => ?_
    obtain ⟨ha, hca⟩ := List.mem_filter.mp ha
    obtain ⟨hb, hcb⟩ := List.mem_filter.mp hb
    obtain heq | ⟨hne, -⟩ := h t ht t ht end? a.1 b.1 r r' ⟨a.2, ha, hs _ hca, hr⟩ ⟨b.2, hb, hs _ hcb, hr'⟩ hid
    · rw [heq, SortedMap.compare_eq_iff.mpr rfl] at hlt
      cases hlt
    · exact hne rfl
  unfold relations read
  refine List.pairwise_filterMap.mpr (List.pairwise_map.mpr (hcells.imp fun {a b} hab r hr r' hr' => ?_))
  exact hab r r' (Outcome.eq_ok_of_toOption hr) (Outcome.eq_ok_of_toOption hr')

/-- Slices without a column in common hold no id twice, if each goes over one layout and no two go over
different layouts of one type. -/
theorem DistinctIds.nodup_ids (h : row.DistinctIds schema) {P : RelationType → Prop}
    (hapart : reads.Pairwise fun a b => a.slice.Apart b.slice)
    (hover : ∀ read ∈ reads, ∃ t ∈ schema.types, P t ∧
      ∀ c, read.slice.contains c = true → typeStem t ++ [end?] <+: c)
    (hP : ∀ t u, P t → P u → t.baseId = u.baseId → t = u) :
    ((reads.flatMap fun read => row.relations (read.slice.withLimit none)).map (·.id)).Nodup := by
  refine List.pairwise_map.mpr (List.pairwise_flatMap.mpr ⟨fun read hread => ?_, ?_⟩)
  · obtain ⟨t, ht, -, hstem⟩ := hover read hread
    exact h.pairwise_relations ht hstem
  · refine hapart.imp_of_mem fun {a b} ha hb hab r hr r' hr' hid => ?_
    obtain ⟨t, ht, hPt, hstem⟩ := hover a ha
    obtain ⟨u, hu, hPu, hstem'⟩ := hover b hb
    obtain ⟨c, value, hm, hc, hval⟩ := mem_relations_unlimited.mp hr
    obtain ⟨c', value', hm', hc', hval'⟩ := mem_relations_unlimited.mp hr'
    obtain rfl | ⟨hne, hbase⟩ := h t ht u hu end? c c' r r' ⟨value, hm, hstem c hc, hval⟩
      ⟨value', hm', hstem' c' hc', hval'⟩ hid
    · exact hab c ⟨hc, hc'⟩
    · exact hne (hP t u hPt hPu hbase)

/-- Where all relations have ids of their own it does not matter under which layouts they are. -/
theorem Decodes.distinctIds {held : List (Bytes × Relation)} (h : row.Decodes held)
    (hids : (held.map (·.2.id)).Nodup) : row.DistinctIds schema := by
  have hheld {c value : Bytes} {r : Relation} (hm : (c, value) ∈ row.toList)
      (hval : Relation.ofStoredBytes value = .ok r) : (c, r) ∈ held := by
    have hmem := List.mem_map_of_mem (f := fun b => (b.1, (Relation.ofStoredBytes b.2).toOption)) hm
    rw [h] at hmem
    obtain ⟨x, hx, he⟩ := List.mem_map.mp hmem
    obtain ⟨rfl, hr⟩ := Prod.mk.inj he
    rw [hval] at hr
    obtain rfl := Option.some.inj hr
    exact hx
  rintro t - u - end? c c' r r' ⟨value, hm, -, hval⟩ ⟨value', hm', -, hval'⟩ hid
  exact .inl (congrArg Prod.fst (List.inj_on_of_nodup_map hids (hheld hm hval) (hheld hm' hval') hid))

end Row

/-- Committed relations have ids of their own at either end of every row. -/
theorem Committed.distinctIds {schema : Schema} {relations : List Relation} {table : Table}
    (h : Committed schema relations table) (hs : schema.Sound) (v : VertexId) :
    (table.row (Layout.rowKey v)).DistinctIds schema := by
  have hplaced {t : RelationType} (ht : t ∈ schema.types) {end? : UInt8} {c : Bytes} {r : Relation}
      (hr : (table.row (Layout.rowKey v)).HoldsUnder t end? c r) :
      r ∈ relations ∧ ∃ base d, directionByte? d = some end? ∧ Layout.Placed schema r v base t d c := by
    obtain ⟨value, hm, hstem, hval⟩ := hr
    obtain ⟨r, hr, rfl, base, layout, d, hp⟩ := h.mem_row.mp hm
    obtain rfl := Except.ok.inj ((h.readable r hr).symm.trans hval)
    obtain ⟨b, hd, hstem'⟩ := hp.stem hs
    obtain ⟨hsame, rfl⟩ := Layout.stem_end_inj hstem hstem'
    obtain rfl := hs.eq_of_id ht (hp.layout hs).1 (Layout.id_eq_of_typeStem hsame)
    exact ⟨hr, base, d, hd, hp⟩
  rintro t ht u hu end? c c' r r' hr hr' hid
  obtain ⟨hmem, base, d, hd, hp⟩ := hplaced ht hr
  obtain ⟨hmem', base', d', hd', hp'⟩ := hplaced hu hr'
  obtain rfl := h.ids r hmem r' hmem' hid
  obtain rfl := Option.some.inj (hp.typed.symm.trans hp'.typed)
  obtain rfl := Layout.directionByte?_inj hd hd'
  by_cases htu : t = u
  · subst htu
    exact .inl (Except.ok.inj (hp.column.symm.trans hp'.column))
  · obtain ⟨base', hfit, hindex⟩ := h.fits r hmem
    obtain rfl := Option.some.inj (hp.typed.symm.trans hfit.typed)
    have hbase := Schema.mem_of_type hp.typed
    exact .inr ⟨htu, (hs.baseId_eq ht (.inl rfl) hbase hindex (hp.layout hs).2).trans
      (hs.baseId_eq hu (.inl rfl) hbase hindex (hp'.layout hs).2).symm⟩

/-! ## The reads of named types -/

theorem Schema.name_of_named {schema : Schema} {t : RelationType} {name : String}
    (h : schema.named? name = some t) : t.name = name := by
  have hname := List.find?_some h
  exact beq_iff_eq.mp hname

namespace Query

variable {s : Setting} {q : Query} {keys : KeyIntervals} {t u : RelationType} {d e : Direction} {end? : UInt8}
  {reads : List PlannedRead} {category : Category} {names : List String} {types : List TypeId}
  {compiled : CompiledQuery}

/-- Of one end that is asked for a named type is read at no other. -/
theorem eq_of_admitted {category' : Category} (hd : d ≠ .both)
    (h : q.admitted t d category = .ok (category', some e)) : e = d := by
  have hout := covers_of_admitted h (f := .out)
  have hinto := covers_of_admitted h (f := .into)
  cases d <;> cases e <;> simp_all [Direction.covers]

/-- At one end a type is read there alone. -/
theorem readsOfType_at_end (hd : d ≠ .both) (h : readsOfType s q keys t d = .ok reads) :
    readsAtEnd s q keys t d = .ok reads := by
  obtain ⟨hboth, -⟩ | ⟨parts, hparts, rfl⟩ := readsOfType_eq_ok h
  · exact absurd hboth hd
  · rw [← endsOf_eq, if_neg hd] at hparts
    obtain ⟨part, rest, hpart, hrest, rfl⟩ := Outcome.mapM_cons_eq_ok.mp hparts
    rw [← Except.ok.inj hrest, hpart]
    exact congrArg Except.ok (List.append_nil part).symm

theorem baseId_layoutAt (hs : s.schema.Sound) (ht : t ∈ s.schema.types) (hi : t.isIndex = false) :
    (layoutAt s q keys t d).baseId = t.id := by
  have hlayout : layoutAt s q keys t d = t ∨ (layoutAt s q keys t d).IndexOver t := layoutAt_over hs ht d
  obtain heq | hover := hlayout
  · rw [heq, RelationType.baseId_of_not_index hi]
  · rw [RelationType.baseId, hover.indexOf, Option.getD_some]

/-- A name stands for the type, which is no index. -/
def Names (s : Setting) (names : List String) (t : RelationType) : Prop :=
  t.isIndex = false ∧ ∃ name ∈ names, s.schema.named? name = some t

theorem Names.mem_types (h : Names s names t) : t ∈ s.schema.types := by
  obtain ⟨-, name, -, ht⟩ := h
  exact Schema.mem_of_named ht

/-- The layouts of different named types are kept under different types. -/
theorem Names.eq_of_baseId (hs : s.schema.Sound) (ht : Names s names t) (hu : Names s names u)
    (h : (layoutAt s q keys t d).baseId = (layoutAt s q keys u d).baseId) : t = u := by
  rw [baseId_layoutAt hs ht.mem_types ht.1, baseId_layoutAt hs hu.mem_types hu.1] at h
  exact hs.eq_of_id ht.mem_types hu.mem_types h

/-- The reads of types with names of their own at one end have no column in common, and each goes over the
layout of a named type there. -/
theorem readsOfTypes_apart (hs : s.schema.Sound) (hkeys : ∀ key, ∀ i ∈ keys.intervals.get? key, i.Sorted)
    (hd : directionByte? d = some end?) (hnodup : names.Nodup) (hnames : NamesNoIndex s.schema names)
    (h : readsOfTypes s q keys d category names = .ok (types, reads)) :
    (reads.Pairwise fun a b => a.slice.Apart b.slice) ∧ ∀ read ∈ reads, ∃ t, Names s names t ∧
      ∀ c, read.slice.contains c = true → typeStem (layoutAt s q keys t d) ++ [end?] <+: c := by
  induction names generalizing category types reads with
  | nil =>
    obtain ⟨rfl, rfl⟩ := Prod.mk.inj (Except.ok.inj h)
    exact ⟨.nil, by simp⟩
  | cons name names ih =>
    obtain ⟨hfresh, hnodup⟩ := List.nodup_cons.mp hnodup
    have hrest : NamesNoIndex s.schema names := fun n hn => hnames n (List.mem_cons_of_mem _ hn)
    have hlater {t : RelationType} : Names s names t → Names s (name :: names) t := by
      rintro ⟨hi, n, hn, ht⟩
      exact ⟨hi, n, List.mem_cons_of_mem _ hn, ht⟩
    have htail {category' : Category} {types' : List TypeId} {more : List PlannedRead}
        (hmore : readsOfTypes s q keys d category' names = .ok (types', more)) :=
      ih hnodup hrest hmore
    obtain ⟨-, h⟩ | ⟨t, category', ht, ⟨-, h⟩ | ⟨f, part, types', more, hadm, hpart, hmore, rfl, rfl⟩⟩ :=
      readsOfTypes_cons_eq_ok.mp h
    · exact ⟨(htail h).1, fun read hread => ((htail h).2 read hread).imp fun _ hu => ⟨hlater hu.1, hu.2⟩⟩
    · exact ⟨(htail h).1, fun read hread => ((htail h).2 read hread).imp fun _ hu => ⟨hlater hu.1, hu.2⟩⟩
    · have hone : d ≠ .both := by
        rintro rfl
        cases hd
      have hnamed : Names s (name :: names) t :=
        ⟨hnames name List.mem_cons_self t ht, name, List.mem_cons_self, ht⟩
      obtain rfl := eq_of_admitted hone hadm
      obtain ⟨hapart, hstem⟩ := readsAtEnd_apart hkeys hd (readsOfType_at_end hone hpart)
      obtain ⟨hmoreApart, hmoreStem⟩ := htail hmore
      constructor
      · refine List.pairwise_append.mpr ⟨hapart, hmoreApart, ?_⟩
        rintro a ha b hb c ⟨hca, hcb⟩
        obtain ⟨u, hu, hstem'⟩ := hmoreStem b hb
        -- a column under both stems is one of the layout of two types, with names of their own
        have hsame := (Layout.stem_end_inj (hstem a ha c hca) (hstem' c hcb)).1
        have hlayout := hs.eq_of_id (layoutAt_mem hnamed.mem_types _) (layoutAt_mem hu.mem_types _)
          (Layout.id_eq_of_typeStem hsame)
        obtain rfl := Names.eq_of_baseId hs hnamed (hlater hu) (congrArg RelationType.baseId hlayout)
        obtain ⟨-, n, hn, hname⟩ := hu
        exact hfresh (Schema.name_of_named ht ▸ Schema.name_of_named hname ▸ hn)
      · intro read hread
        obtain hread | hread := List.mem_append.mp hread
        · exact ⟨t, hnamed, fun c hc => hstem read hread c hc⟩
        · obtain ⟨u, hu, hstem'⟩ := hmoreStem read hread
          exact ⟨u, hlater hu, hstem'⟩

/-- Of a row without an id twice the reads of a query for named types at one end hold no id twice. -/
theorem nodup_ids_compile (hs : s.schema.Sound) (hd : q.direction ≠ .both) (htypes : q.types ≠ [])
    (hnodup : q.types.Nodup) (hnames : NamesNoIndex s.schema q.types)
    (h : q.compile s category = .ok compiled) {row : Row} (hrow : row.DistinctIds s.schema) :
    ((compiled.reads.flatMap fun read => row.relations (read.slice.withLimit none)).map (·.id)).Nodup := by
  obtain ⟨rfl, -⟩ | ⟨d, conditions, hwanted, -, hplan⟩ := compile_eq_ok h
  · exact List.nodup_nil
  obtain ⟨hnone, -⟩ | ⟨-, -, rfl⟩ | ⟨-, types, reads, hreads, he⟩ := plan_eq_ok hplan
  · exact absurd hnone htypes
  · exact List.nodup_nil
  obtain ⟨-, rfl⟩ | ⟨-, rfl⟩ := he
  · exact List.nodup_nil
  obtain ⟨end?, hend⟩ : ∃ end?, directionByte? d = some end? := by
    obtain rfl | ⟨-, rfl, -⟩ := wantedEnd?_eq hwanted
    · cases hq : q.direction <;> simp_all [directionByte?]
    · exact ⟨0, rfl⟩
  obtain ⟨hapart, hover⟩ :=
    readsOfTypes_apart hs (fun _ => KeyIntervals.sorted_ofConditions) hend hnodup hnames hreads
  let keys := KeyIntervals.ofConditions conditions q.adjacent
  let P (layout : RelationType) := ∃ t, Names s q.types t ∧ layout = layoutAt s q keys t d
  have hunder : ∀ read ∈ reads, ∃ layout ∈ s.schema.types, P layout ∧
      ∀ c, read.slice.contains c = true → typeStem layout ++ [end?] <+: c := by
    intro read hread
    obtain ⟨t, ht, hstem⟩ := hover read hread
    exact ⟨layoutAt s q keys t d, layoutAt_mem ht.mem_types d, ⟨t, ht, rfl⟩, hstem⟩
  refine hrow.nodup_ids hapart hunder ?_
  rintro _ _ ⟨t, ht, rfl⟩ ⟨u, hu, rfl⟩ hbase
  rw [Names.eq_of_baseId hs ht hu hbase]

end Query

/-! ## Counting ids -/

/-- How many different ids some relations have. -/
def Relation.idCount (relations : List Relation) : Nat := (relations.map (·.id)).toFinset.card

theorem Relation.idCount_eq_length {relations : List Relation} (h : (relations.map (·.id)).Nodup) :
    idCount relations = relations.length := by
  rw [idCount, List.toFinset_card_of_nodup h, List.length_map]

theorem Relation.idCount_mono {relations more : List Relation} (h : relations ⊆ more) :
    idCount relations ≤ idCount more := by
  refine Finset.card_le_card fun id hid => ?_
  rw [List.mem_toFinset] at hid ⊢
  exact List.map_subset _ h hid

/-- As many results are kept as there are keys. -/
theorem Execution.length_dedup {σ α κ : Type} [Ord κ] [Std.TransOrd κ] [Std.LawfulEqOrd κ] [DecidableEq κ]
    {view : GraphView σ} (h : view.dedup = true) (key : α → κ) (results : List α) :
    (dedup view key results).length = (results.map key).toFinset.card := by
  rw [← List.length_map key, ← List.toFinset_card_of_nodup (nodup_dedup h key results)]
  refine congrArg Finset.card (Finset.ext fun k => ?_)
  rw [List.mem_toFinset, List.mem_toFinset, dedup, if_pos h]
  exact mem_keys_firstByKey.trans (and_iff_left rfl)

section

variable {α β : Type} {cmp : α → α → Ordering} {limit : Nat} {all part : List α} {whole : β → List α}
  {xs : List β} {parts : List (List α)}

/-- A best part is all there is, or as many as are wanted. -/
theorem BestPart.perm_or_full (h : BestPart cmp limit all part) :
    part.Perm all ∨ limit ≠ ReadLimit.most ∧ part.length = limit := by
  obtain ⟨left, hperm, hlen, -⟩ := h
  cases left with
  | nil => exact .inl (by rwa [List.append_nil] at hperm)
  | cons x left =>
    have htotal := hperm.length_eq
    rw [List.length_append, List.length_cons] at htotal
    split at hlen
    · omega
    · exact .inr ⟨‹_›, by omega⟩

theorem BestPart.subperm (h : BestPart cmp limit all part) : part.Subperm all := by
  obtain ⟨left, hperm, -⟩ := h
  exact (List.sublist_append_left part left).subperm.trans hperm.subperm

/-- Best parts are all there is together, or one of them is as many as are wanted. -/
theorem perm_or_full_of_bestParts
    (h : List.Forall₂ (fun x part => BestPart cmp limit (whole x) part) xs parts) :
    parts.flatten.Perm (xs.flatMap whole) ∨ limit ≠ ReadLimit.most ∧
      ∃ x ∈ xs, ∃ part ∈ parts, part.Subperm (whole x) ∧ part.length = limit := by
  induction h with
  | nil => exact .inl (List.Perm.refl _)
  | cons hx _ ih =>
    obtain hperm | ⟨hmost, hlen⟩ := hx.perm_or_full
    · obtain hrest | ⟨hmost, y, hy, part, hpart, hfull⟩ := ih
      · exact .inl (hperm.append hrest)
      · exact .inr ⟨hmost, y, List.mem_cons_of_mem _ hy, part, List.mem_cons_of_mem _ hpart, hfull⟩
    · exact .inr ⟨hmost, _, List.mem_cons_self, _, List.mem_cons_self, hx.subperm, hlen⟩

theorem subset_of_bestParts
    (h : List.Forall₂ (fun x part => BestPart cmp limit (whole x) part) xs parts) :
    parts.flatten ⊆ xs.flatMap whole := by
  induction h with
  | nil => exact List.Subset.refl _
  | cons hx _ ih =>
    rw [List.flatten_cons, List.flatMap_cons]
    refine List.append_subset.mpr ⟨?_, ?_⟩
    · exact List.subset_append_of_subset_left _ hx.subperm.subset
    · exact List.subset_append_of_subset_right _ ih

end

/-- Cut at the limit, best parts of streams without an id twice have as many ids as the streams have, cut at the
limit. -/
theorem idCount_of_bestParts {α : Type} {f : α → Relation} {cmp : α → α → Ordering} {limit : Nat}
    {reps : List VertexId} {all : VertexId → List α} {parts : List (List α)}
    (h : List.Forall₂ (fun rep part => BestPart cmp limit (all rep) part) reps parts)
    (hnodup : ∀ rep ∈ reps, ((all rep).map fun a => (f a).id).Nodup) :
    (if limit = ReadLimit.most then Relation.idCount (parts.flatten.map f)
      else min limit (Relation.idCount (parts.flatten.map f))) =
    if limit = ReadLimit.most then Relation.idCount ((reps.flatMap all).map f)
      else min limit (Relation.idCount ((reps.flatMap all).map f)) := by
  have hle := Relation.idCount_mono (List.map_subset f (subset_of_bestParts h))
  obtain hperm | ⟨hmost, rep, hrep, part, hpart, hsub, hlen⟩ := perm_or_full_of_bestParts h
  · have hge := Relation.idCount_mono (List.map_subset f hperm.symm.subset)
    rw [Nat.le_antisymm hle hge]
  · -- the ids of a part that is as long as the limit are as many
    have hown : ((part.map f).map (·.id)).Nodup := by
      obtain ⟨same, hsame, hsublist⟩ := hsub
      rw [List.map_map]
      exact (hsame.map _).nodup_iff.mp ((hnodup rep hrep).sublist (hsublist.map _))
    have hpart := Relation.idCount_mono (List.map_subset f
      (List.Sublist.subset (List.sublist_flatten_of_mem hpart)))
    rw [Relation.idCount_eq_length hown, List.length_map, hlen] at hpart
    rw [if_neg hmost, if_neg hmost, Nat.min_eq_left hpart, Nat.min_eq_left (Nat.le_trans hpart hle)]

/-! ## Answers of all representatives -/

namespace Execution

variable {σ : Type} {e : Execution} {view : GraphView σ} {inv : σ → Prop} {v : VertexId} {row : Row}
  {o : ResultOrder}

/-- A row to which nothing was added answers no id twice that its slices do not hold twice. -/
theorem nodup_allOf (hadded : view.addedAt v = [])
    (h : ((e.query.reads.flatMap fun read => row.relations (read.slice.withLimit none)).map (·.id)).Nodup) :
    ((e.allOf view v row).map (·.id)).Nodup := by
  unfold allOf
  split
  · exact List.nodup_nil
  · split
    · exact h
    · refine ((GraphView.perm_arranged _).map _).nodup_iff.mpr ?_
      unfold GraphView.candidates
      rw [hadded, List.filter_nil, List.append_nil]
      exact h.sublist ((List.Sublist.flatMap_right e.query.reads fun read _ => List.filter_sublist).map _)

/-- Of the best parts of streams without an id twice so many ids are left as the streams have together, cut at
the limit. -/
theorem merged_ids (hdedup : view.dedup = true) {all : VertexId → List Relation}
    (h : ∀ rep ∈ view.representatives v e.restrictToPartitions,
      (e.individual view rep).Yields inv (BestPart (o.cmp v) e.query.limit (all rep)))
    (hnodup : ∀ rep ∈ view.representatives v e.restrictToPartitions, ((all rep).map (·.id)).Nodup) :
    let n := Relation.idCount ((view.representatives v e.restrictToPartitions).flatMap all)
    (e.merged view v).Yields inv fun results => (results.map (·.2.id)).Nodup ∧
      results.length = if e.query.limit = ReadLimit.most then n else min e.query.limit n := by
  unfold merged
  refine (Act.yields_mapM fun rep hr => yields_stream (h rep hr)).bind fun streams hstreams =>
    Act.yields_pure ⟨?_, ?_⟩
  · have hkept := nodup_dedup hdedup (fun r : VertexId × Relation => r.2.id)
      (mergeStreams (fun a b => e.query.order.cmp v a.2 b.2) streams)
    exact hkept.sublist ((ReadLimit.cut_sublist ..).map _)
  · have hmerged : ((mergeStreams (fun a b => e.query.order.cmp v a.2 b.2) streams).map
        fun r => r.2.id).toFinset.card = Relation.idCount (streams.flatten.map (·.2)) := by
      rw [Relation.idCount, List.map_map]
      exact congrArg Finset.card (List.toFinset_eq_of_perm _ _ (perm_mergeStreams.map _))
    have hstripped : ((view.representatives v e.restrictToPartitions).flatMap fun rep =>
        (all rep).map (rep, ·)).map (·.2) = (view.representatives v e.restrictToPartitions).flatMap all := by
      simp [List.map_flatMap, Function.comp_def]
    have hcount := idCount_of_bestParts (f := Prod.snd) hstreams fun rep hr => by
      rw [List.map_map]
      exact hnodup rep hr
    rw [ReadLimit.length_cut, length_dedup hdedup, hmerged, hcount, hstripped]

end Execution

/-! ## Queries -/

namespace GraphTx

variable {g : GraphTx StoreHandle TxHandle} {memory : Memory} {v : VertexId} {schema : Schema} {q : Query}
  {category : Category} {compiled whole : CompiledQuery}

theorem addedAt_of_unchanged {S T : Type} {g : GraphTx S T} (h : g.hasModifications = false) (v : VertexId) :
    g.addedAt v = [] := by
  obtain ⟨hadded, -⟩ := Bool.or_eq_false_iff.mp h
  have hnone : g.added = [] := List.isEmpty_iff.mp (by simpa using hadded)
  rw [addedAt, hnone, List.filter_nil]

/-- A representative without an id twice answers a query for named types of one direction with no id twice. -/
theorem nodup_allAt (hs : schema.Sound) (hunchanged : g.hasModifications = false) (features : Features)
    (hd : q.direction ≠ .both) (htypes : q.types ≠ []) (hnodup : q.types.Nodup)
    (hnames : Query.NamesNoIndex schema q.types) (hc : q.compile (g.setting schema) category = .ok compiled)
    {rep : VertexId} (hrow : (g.rowAt memory rep).DistinctIds schema) :
    ((g.allAt features memory schema q compiled rep).map (·.id)).Nodup :=
  Execution.nodup_allOf (addedAt_of_unchanged hunchanged rep)
    (Query.nodup_ids_compile (s := g.setting schema) hs hd htypes hnodup hnames hc hrow)

/-- Where results that come again are dropped no id is answered twice, and the limit does not suffer: of the ids
that the representatives answer together without a limit there are as many as the query wants, or all of them. -/
theorem merged_distinct (hs : schema.Built) (hg : g.CanRead) (hunchanged : g.hasModifications = false)
    (features : Features)
    (hrows : ∀ rep ∈ g.representatives v q.restrictToPartitions, (g.rowAt memory rep).Readable ∧
      (g.rowAt memory rep).size ≤ g.settings.query.hardMaxLimit ∧ (g.rowAt memory rep).DistinctIds schema)
    (hmost : g.settings.query.hardMaxLimit ≤ ReadLimit.most)
    (hdedup : g.settings.query.partitionDedup = true)
    (hd : q.direction ≠ .both) (htypes : q.types ≠ []) (hnodup : q.types.Nodup)
    (hnames : Query.NamesNoIndex schema q.types)
    (hc : q.compile (g.setting schema) category = .ok compiled)
    (hw : q.unlimited.compile (g.setting schema) category = .ok whole) :
    let view := g.view (Local.backend features)
    let reps := g.representatives v q.restrictToPartitions
    ∃ all : VertexId → List Relation,
      (∀ rep ∈ reps, ((execution schema q.unlimited whole).individual view rep).Yields
        (fun s => s.memory = memory) (· = all rep)) ∧
      ((execution schema q compiled).merged view v).Yields (fun s => s.memory = memory) fun results =>
        (results.map (·.2.id)).Nodup ∧
          results.length = (if q.limit = ReadLimit.most then Relation.idCount (reps.flatMap all)
            else min q.limit (Relation.idCount (reps.flatMap all))) := by
  intro view reps
  refine ⟨g.allAt features memory schema q.unlimited whole,
    fun rep hr => unlimited_yields hg features (hrows rep hr).1 hw, ?_⟩
  cases hne : compiled.isEmpty with
  | true =>
    obtain rfl := Query.eq_empty hc hne
    refine (Execution.merged_nothing (e := execution schema q .empty) rfl rfl
      fun rep hr => ⟨_, readsRow hg features (hrows rep hr).1⟩).mono ?_
    rintro results rfl
    refine ⟨.nil, ?_⟩
    by_cases hlimit : q.limit = 0
    · rw [hlimit, if_neg (by decide), Nat.zero_min]
      rfl
    · -- a query that is empty though it wants results is empty without its limit
      rw [Query.compile_without_limit hlimit, hc] at hw
      obtain rfl := Except.ok.inj hw
      have hnone : (reps.flatMap fun rep =>
          g.allAt features memory schema q.unlimited CompiledQuery.empty.unlimited rep) = [] :=
        List.flatMap_eq_nil_iff.mpr fun _ _ => rfl
      simp [hnone, Relation.idCount]
  | false =>
    obtain ⟨hlimit, -⟩ := Query.compile_limits hc hne
    have hpositive := Query.limit_ne_zero hc hne
    rw [Query.compile_without_limit hpositive, hc] at hw
    obtain rfl := Except.ok.inj hw
    have hall : g.allAt features memory schema q.unlimited compiled.unlimited =
        g.allAt features memory schema q compiled :=
      funext fun rep => Execution.allOf_unlimited ..
    have hbest (rep : VertexId) (hr : rep ∈ reps) : ((execution schema q compiled).individual view rep).Yields
        (fun s => s.memory = memory)
        (BestPart (ResultOrder.none.cmp v) compiled.limit (g.allAt features memory schema q compiled rep)) :=
      -- how many there are does not depend on the order, so take the one that compares nothing
      Execution.individual_best (o := .none) (readsRow hg features (hrows rep hr).1) (hrows rep hr).2.1 hmost hne
        (hlimit ▸ hpositive) (Query.compile_readsEnough hc hne) (.inr rfl)
        fun _ _ _ => ResultOrder.pairwise_of_isEmpty rfl _ _
    rw [hall, ← hlimit]
    exact Execution.merged_ids (e := execution schema q compiled) hdedup hbest fun rep hr =>
      nodup_allAt hs.sound hunchanged features hd htypes hnodup hnames hc (hrows rep hr).2.2

end GraphTx

/-! ## Ratings that come again -/

namespace Rated

/-- Both representatives of vertex 9 hold both ratings. -/
def repeated : Memory :=
  let row := reader.rowAt opened.2.memory ⟨1⟩
  opened.2.memory.mutate reader.store.number (Layout.rowKey ⟨2⟩) ⟨row.keys.zipWith Entry.mk row.values, []⟩

/-- What each of them holds. -/
def heldRepeated : List (Bytes × Relation) :=
  [(columnOf (rating 7 1), rating 7 1), (columnOf (rating 9 9), rating 9 9)]

/-- The two least ratings, and all of them. -/
def compiledTwo : ((once.query schema (least 2)).compile (once.setting schema) .edge).Given :=
  Outcome.given (by decide +kernel)

def compiledWhole : ((once.query schema (least 2)).unlimited.compile (once.setting schema) .edge).Given :=
  Outcome.given (by decide +kernel)

end Rated

/-- Each representative is cut at the two ratings that the other one has as well, and two are left. -/
theorem GraphTx.merged_distinct_repeated :
    ∃ results s', ((execution Rated.schema (Rated.once.query Rated.schema (Rated.least 2))
      Rated.compiledTwo.1).merged (Rated.once.view (Local.backend Memory.defaultFeatures)) ⟨9⟩).exec
        { Rated.opened.2 with memory := Rated.repeated } = (.ok results, s') ∧
      (results.map (·.2.id)).Nodup ∧ results.length = 2 := by
  have hg : Rated.once.CanRead := ⟨by decide +kernel, by decide +kernel⟩
  have hreps : Rated.once.representatives ⟨9⟩
      (Rated.once.query Rated.schema (Rated.least 2)).restrictToPartitions = [⟨1⟩, ⟨2⟩] := by decide +kernel
  have hdecodes : ∀ rep ∈ ([⟨1⟩, ⟨2⟩] : List VertexId),
      (Rated.once.rowAt Rated.repeated rep).Decodes Rated.heldRepeated := by decide +kernel
  have hids : (Rated.heldRepeated.map (·.2.id)).Nodup := by decide +kernel
  have hlimit : (Rated.once.query Rated.schema (Rated.least 2)).limit = 2 := by decide +kernel
  have hloaded : ∀ rep ∈ ([⟨1⟩, ⟨2⟩] : List VertexId), Rated.once.isLoaded rep = true := by decide +kernel
  have hnoindex : ∀ t ∈ Rated.schema.types, t.isIndex = false := by decide +kernel
  obtain ⟨all, hall, hmerged⟩ := merged_distinct (v := ⟨9⟩) Rated.schema_built hg (by decide +kernel)
    Memory.defaultFeatures
    (fun rep hr => by
      have hrow := hdecodes rep (hreps ▸ hr)
      refine ⟨hrow.readable, ?_, hrow.distinctIds hids⟩
      rw [hrow.size_eq]
      decide +kernel)
    (by decide +kernel) (by decide +kernel) (by decide +kernel) (by decide +kernel) (by decide +kernel)
    (fun _ _ t ht => hnoindex t (Schema.mem_of_named ht)) Rated.compiledTwo.2 Rated.compiledWhole.2
  rw [hreps] at hall
  have hlisted : ∀ rep ∈ ([⟨1⟩, ⟨2⟩] : List VertexId), all rep = [Rated.rating 7 1, Rated.rating 9 9] := by
    intro rep hr
    obtain ⟨answer, _, hanswer, -, rfl⟩ := hall rep hr { Rated.opened.2 with memory := Rated.repeated } rfl
    obtain ⟨held, _, hheld, -, rfl⟩ := individual_of_decodes hg Memory.defaultFeatures (hdecodes rep hr)
      (hloaded rep hr) Rated.compiledWhole.2 (by decide +kernel)
      { Rated.opened.2 with memory := Rated.repeated } rfl
    rw [Except.ok.inj (congrArg Prod.fst (hanswer.symm.trans hheld))]
    decide +kernel
  obtain ⟨results, s', hrun, -, hnodup, hlen⟩ := hmerged { Rated.opened.2 with memory := Rated.repeated } rfl
  refine ⟨results, s', hrun, hnodup, ?_⟩
  rw [hlen, hlimit, hreps, if_neg (by decide), List.flatMap_cons, List.flatMap_singleton, hlisted ⟨1⟩ (by decide),
    hlisted ⟨2⟩ (by decide)]
  decide +kernel

end RowGraph
