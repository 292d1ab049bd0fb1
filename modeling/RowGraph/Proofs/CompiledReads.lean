import RowGraph.Proofs.Layouts

/-!
# What compiled queries read

Compiling goes through the named types one by one.  The reads of a query with type names hold a
column of every relation of a named type whose values are inside the intervals, at every end that is
asked for and kept (`readsOfTypes_complete`), and of no other type or end (`readsOfTypes_sound`).  The
condition of a compiled query, bound to a vertex, is the conjunction that `evaluate_bind` spells out.
-/

namespace RowGraph

open Layout (Placed directionByte?)

theorem RelationType.isPropertyKey_eq (t : RelationType) : t.isPropertyKey = !t.isEdgeLabel := by
  unfold isPropertyKey isEdgeLabel
  cases t.kind <;> rfl

theorem Direction.covers_iff (d e : Direction) : d.covers e = true ↔ d = .both ∨ d = e := by
  simp [covers]

theorem Relation.isIncident_of_sitsAt {r : Relation} {v : VertexId} {d : Direction}
    (h : r.sitsAt v d = true) : r.isIncident v = true := by
  cases d <;> simp_all [sitsAt, isIncident]

theorem Relation.sitsAt_of_covers {r : Relation} {v : VertexId} {d e : Direction}
    (hd : d.covers e = true) (h : r.sitsAt v e = true) : r.sitsAt v d = true := by
  rcases (Direction.covers_iff d e).mp hd with rfl | rfl
  · exact isIncident_of_sitsAt h
  · exact h

namespace Query

variable {s : Setting} {q : Query} {keys : KeyIntervals} {t base layout : RelationType}
  {d e : Direction} {reads : List PlannedRead} {read : PlannedRead} {r : Relation} {v : VertexId}
  {c : Bytes}

/-! ## The reads of one type -/

theorem endsOf_eq (d : Direction) :
    (if d = .both then Direction.ends else [d]) = Direction.ends.filter d.covers := by
  cases d <;> rfl

/-- A type is read at both ends at once, or at every end that is asked for, one after another. -/
theorem readsOfType_eq_ok (h : readsOfType s q keys t d = .ok reads) :
    (d = .both ∧ keys.intervals.isEmpty = true ∧ q.order.isEmpty = true ∧
        ∃ slice, Layout.typeSlice t .both .none = .ok slice ∧
          reads = [⟨slice.withLimit q.limit?, keys.fitted, true⟩]) ∨
      ∃ parts, (Direction.ends.filter d.covers).mapM (readsAtEnd s q keys t) = .ok parts ∧
        reads = parts.flatten := by
  rw [← endsOf_eq]
  unfold readsOfType at h
  split at h
  · rename_i hc
    simp only [Bool.and_eq_true, beq_iff_eq] at hc
    obtain ⟨slice, hslice, he⟩ := Outcome.bind_eq_ok.mp h
    exact .inl ⟨hc.1.1.2, hc.1.2, hc.2, slice, hslice, (Except.ok.inj he).symm⟩
  · obtain ⟨parts, hparts, he⟩ := Outcome.bind_eq_ok.mp h
    exact .inr ⟨parts, hparts, (Except.ok.inj he).symm⟩

/-- A type is read at both ends at once, or at every end that is asked for. -/
theorem readsOfType_cases (h : readsOfType s q keys t d = .ok reads) :
    (d = .both ∧ keys.intervals.isEmpty = true ∧ q.order.isEmpty = true ∧
        ∃ slice, Layout.typeSlice t .both .none = .ok slice ∧
          reads = [⟨slice.withLimit q.limit?, keys.fitted, true⟩]) ∨
      (∀ e ∈ Direction.ends, d.covers e = true → ∃ part, readsAtEnd s q keys t e = .ok part ∧
        ∀ read ∈ part, read ∈ reads) ∧
      ∀ read ∈ reads, ∃ e ∈ Direction.ends, d.covers e = true ∧
        ∃ part, readsAtEnd s q keys t e = .ok part ∧ read ∈ part := by
  refine (readsOfType_eq_ok h).imp_right ?_
  rintro ⟨parts, hparts, rfl⟩
  refine ⟨fun e he hcov => ?_, fun read hread => ?_⟩
  · have hmem : e ∈ Direction.ends.filter d.covers := List.mem_filter.mpr ⟨he, hcov⟩
    obtain ⟨part, hpart⟩ := Outcome.ok_of_mapM hparts hmem
    refine ⟨part, hpart, fun read hread => List.mem_flatten.mpr ⟨part, ?_, hread⟩⟩
    exact (Outcome.mem_of_mapM hparts).mpr ⟨e, hmem, hpart⟩
  · obtain ⟨part, hpart, hread⟩ := List.mem_flatten.mp hread
    obtain ⟨e, he, hpart⟩ := (Outcome.mem_of_mapM hparts).mp hpart
    obtain ⟨he, hcov⟩ := List.mem_filter.mp he
    exact ⟨e, he, hcov, part, hpart, hread⟩

theorem directionByte?_of_mem {d : Direction} (h : d ∈ Direction.ends) :
    ∃ end?, directionByte? d = some end? := by
  cases d <;> simp [Direction.ends, directionByte?] at h ⊢

theorem readsOfType_complete (hs : s.schema.Sound) (h : readsOfType s q keys t d = .ok reads)
    (hr : s.schema.type? r.typeId = some t) {es : List (Bytes × Entry)}
    (hes : Layout.entriesFor s.schema r = .ok es) (hcov : d.covers e = true)
    (hst : t.storesDirection e = true) (hend : (e, v) ∈ Layout.ends r) (hin : keys.Inside v r) :
    ∃ read ∈ reads, ∃ layout c, Placed s.schema r v t layout e c ∧ read.slice.contains c = true := by
  rcases readsOfType_cases h with ⟨-, -, -, slice, hslice, rfl⟩ | ⟨hparts, -⟩
  · obtain ⟨layouts, hl⟩ := Layout.keptLayouts_ok hes hr
    obtain ⟨c, hp⟩ := Layout.exists_placed hes hr hl (Layout.mem_keptLayouts_self hl) hst hend
    refine ⟨_, List.mem_singleton.mpr rfl, t, c, hp, ?_⟩
    exact (Layout.contains_bothEnds hs hp (Schema.mem_of_type hr) hslice).mpr rfl
  · obtain ⟨part, hpart, hsub⟩ := hparts e (Layout.mem_ends.mp hend).1 hcov
    obtain ⟨read, hread, layout, c, hp, hc⟩ := readsAtEnd_complete hs hpart hr hes hend hin
    exact ⟨read, hsub read hread, layout, c, hp, hc⟩

theorem readsOfType_sound (hs : s.schema.Sound) (ht : t ∈ s.schema.types) (hti : t.isIndex = false)
    (h : readsOfType s q keys t d = .ok reads) (hr : read ∈ reads) (hbi : base.isIndex = false)
    (hp : Placed s.schema r v base layout e c) (hc : read.slice.contains c = true) :
    base = t ∧ d.covers e = true := by
  rcases readsOfType_cases h with ⟨rfl, -, -, slice, hslice, rfl⟩ | ⟨-, hparts⟩
  · obtain rfl := List.mem_singleton.mp hr
    have hl : layout = t := (Layout.contains_bothEnds hs hp ht hslice).mp hc
    refine ⟨hs.eq_of_layout ht hti (.inl hl) (Schema.mem_of_type hp.typed) hbi (hp.layout hs).2, ?_⟩
    exact (Direction.covers_iff _ _).mpr (.inl rfl)
  · obtain ⟨e', he', hcov, part, hpart, hread⟩ := hparts read hr
    obtain ⟨end?, hd⟩ := directionByte?_of_mem he'
    obtain ⟨rfl, rfl⟩ := readsAtEnd_sound hs ht hti hd hpart hread hbi hp hc
    exact ⟨rfl, hcov⟩

theorem readsOfType_fitted (hs : s.schema.Sound) (ht : t ∈ s.schema.types)
    (hk : t.DistinctKeys s.schema) (h : readsOfType s q keys t d = .ok reads) (hr : read ∈ reads)
    (hp : Placed s.schema r v base layout e c) (hc : read.slice.contains c = true)
    (hf : read.fitted = true) : keys.fitted = true ∧ keys.Inside v r := by
  rcases readsOfType_cases h with ⟨-, hempty, -, slice, hslice, rfl⟩ | ⟨-, hparts⟩
  · obtain rfl := List.mem_singleton.mp hr
    refine ⟨hf, fun key i hi => ?_⟩
    have hm := SortedMap.mem_toList_iff.mpr hi
    rw [List.isEmpty_iff.mp hempty] at hm
    cases hm
  · obtain ⟨e', he', -, part, hpart, hread⟩ := hparts read hr
    obtain ⟨end?, hd⟩ := directionByte?_of_mem he'
    exact readsAtEnd_fitted hs ht hk hd hpart hread hp hc hf

/-! ## The reads of all named types -/

theorem endOf?_covers (h : endOf? t d = some e) {f : Direction} (hf : e.covers f = true) :
    d.covers f = true := by
  unfold endOf? at h
  split at h
  · rwa [Option.some.inj h]
  · split at h
    · rename_i hd
      exact (Direction.covers_iff _ _).mpr (.inl hd)
    · split at h
      · rwa [Option.some.inj h]
      · cases h

theorem endOf?_of_covers {f : Direction} (hf : f ∈ Direction.ends) (hd : d.covers f = true)
    (hst : t.storesDirection f = true) : ∃ e, endOf? t d = some e ∧ e.covers f = true := by
  unfold endOf? RelationType.isDirected
  unfold RelationType.storesDirection at hst
  cases ht : t.directionality <;> cases d <;> cases f <;>
    simp_all [Direction.covers, Direction.ends]

/-- A property key is admitted to a query that does not ask for edges, and is read where it goes out; an edge
label is admitted to one that does not ask for properties, and is read at the ends that are asked for. -/
theorem admitted_cases {category category' : Category} {end? : Option Direction}
    (h : q.admitted t d category = .ok (category', end?)) :
    (t.isPropertyKey = true ∧ category ≠ .edge ∧
      (d = .into ∧ category' = category ∧ end? = none ∨
        d ≠ .into ∧ category' = .property ∧ end? = endOf? t .out)) ∨
    (t.isPropertyKey = false ∧ category ≠ .property ∧ category' = .edge ∧ end? = endOf? t d) := by
  unfold admitted at h
  split at h
  · cases h
  · split at h
    · cases h
    · split at h
      · rename_i hp
        split at h
        · cases h
        · rename_i hne
          split at h
          · rename_i hd
            obtain ⟨rfl, rfl⟩ := Prod.mk.inj (Except.ok.inj h)
            exact .inl ⟨hp, hne, .inl ⟨hd, rfl, rfl⟩⟩
          · rename_i hd
            obtain ⟨rfl, rfl⟩ := Prod.mk.inj (Except.ok.inj h)
            exact .inl ⟨hp, hne, .inr ⟨hd, rfl, rfl⟩⟩
      · rename_i hp
        split at h
        · cases h
        · rename_i hne
          obtain ⟨rfl, rfl⟩ := Prod.mk.inj (Except.ok.inj h)
          exact .inr ⟨Bool.not_eq_true _ ▸ hp, hne, rfl, rfl⟩

/-- A named type is read at ends that are asked for only. -/
theorem covers_of_admitted {category category' : Category}
    (h : q.admitted t d category = .ok (category', some e)) {f : Direction}
    (hf : e.covers f = true) : d.covers f = true := by
  obtain ⟨-, -, ⟨-, -, hend⟩ | ⟨hd, -, hend⟩⟩ | ⟨-, -, -, hend⟩ := admitted_cases h
  · cases hend
  · obtain ho | rfl := (Direction.covers_iff _ _).mp (endOf?_covers hend.symm hf)
    · cases ho
    · cases d <;> simp_all [Direction.covers]
  · exact endOf?_covers hend.symm hf

/-- A named type is read at every end that is asked for and kept. -/
theorem admitted_of_covers {category category' : Category} {end? : Option Direction}
    (h : q.admitted t d category = .ok (category', end?)) {f : Direction} (hf : f ∈ Direction.ends)
    (hd : d.covers f = true) (hst : t.storesDirection f = true)
    (hprop : t.isPropertyKey = true → f = .out) : ∃ e, end? = some e ∧ e.covers f = true := by
  obtain ⟨hp, -, ⟨rfl, -, -⟩ | ⟨-, -, rfl⟩⟩ | ⟨-, -, -, rfl⟩ := admitted_cases h
  · rw [hprop hp] at hd
    cases hd
  · obtain rfl := hprop hp
    exact endOf?_of_covers hf rfl hst
  · exact endOf?_of_covers hf hd hst

/-- A type is admitted to a query for its own category only, which stays what it is. -/
theorem category_of_admitted {category category' : Category} {end? : Option Direction}
    (h : q.admitted t d category = .ok (category', end?)) :
    category = .relation ∨ category' = category ∧ Layout.ofCategory category t = true := by
  obtain ⟨hp, hne, hread⟩ | ⟨hp, hne, rfl, -⟩ := admitted_cases h
  · cases category with
    | edge => exact absurd rfl hne
    | relation => exact .inl rfl
    | property =>
      refine .inr ⟨?_, hp⟩
      obtain ⟨-, hsame, -⟩ | ⟨-, hsame, -⟩ := hread <;> exact hsame
  · cases category with
    | edge => exact .inr ⟨rfl, by simp_all [Layout.ofCategory, RelationType.isPropertyKey_eq]⟩
    | relation => exact .inl rfl
    | property => exact absurd rfl hne

/-- A name adds nothing that is not known or that is passed over, and otherwise the reads of its type. -/
theorem readsOfTypes_cons_eq_ok {category : Category} {name : String} {names : List String}
    {types : List TypeId} :
    readsOfTypes s q keys d category (name :: names) = .ok (types, reads) ↔
      s.schema.named? name = none ∧ readsOfTypes s q keys d category names = .ok (types, reads) ∨
      ∃ t category', s.schema.named? name = some t ∧
        (q.admitted t d category = .ok (category', none) ∧
            readsOfTypes s q keys d category' names = .ok (types, reads) ∨
          ∃ e part types' more, q.admitted t d category = .ok (category', some e) ∧
            readsOfType s q keys t e = .ok part ∧
            readsOfTypes s q keys d category' names = .ok (types', more) ∧
            types = t.id :: types' ∧ reads = part ++ more) := by
  rw [readsOfTypes]
  constructor
  · intro h
    split at h
    · rename_i hnone
      exact .inl ⟨hnone, h⟩
    · rename_i t ht
      obtain ⟨⟨category', end?⟩, hadm, h⟩ := Outcome.bind_eq_ok.mp h
      refine .inr ⟨t, category', ht, ?_⟩
      cases end? with
      | none => exact .inl ⟨hadm, h⟩
      | some e =>
        obtain ⟨part, hpart, h⟩ := Outcome.bind_eq_ok.mp h
        obtain ⟨⟨types', more⟩, hmore, h⟩ := Outcome.bind_eq_ok.mp h
        obtain ⟨rfl, rfl⟩ := Prod.mk.inj (Except.ok.inj h)
        exact .inr ⟨e, part, types', more, hadm, hpart, hmore, rfl, rfl⟩
  · rintro (⟨hnone, h⟩ | ⟨t, category', ht, ⟨hadm, h⟩ | ⟨e, part, types', more, hadm, hpart, hmore, rfl, rfl⟩⟩)
    · rw [hnone]
      exact h
    · rw [ht]
      exact Outcome.bind_eq_ok.mpr ⟨_, hadm, h⟩
    · rw [ht]
      refine Outcome.bind_eq_ok.mpr ⟨_, hadm, Outcome.bind_eq_ok.mpr ⟨part, hpart, ?_⟩⟩
      rw [hmore]
      rfl

theorem readsOfTypes_mem {category : Category} {names : List String} {types : List TypeId}
    (h : readsOfTypes s q keys d category names = .ok (types, reads)) (hr : read ∈ reads) :
    ∃ name ∈ names, ∃ t category category' e part, s.schema.named? name = some t ∧ t.id ∈ types ∧
      q.admitted t d category = .ok (category', some e) ∧ readsOfType s q keys t e = .ok part ∧
      read ∈ part := by
  induction names generalizing category types reads with
  | nil =>
    obtain ⟨rfl, rfl⟩ := Prod.mk.inj (Except.ok.inj h)
    cases hr
  | cons name names ih =>
    rcases readsOfTypes_cons_eq_ok.mp h with
      ⟨-, h⟩ | ⟨t, category', ht, ⟨-, h⟩ | ⟨e, part, types', more, hadm, hpart, hmore, rfl, rfl⟩⟩
    · obtain ⟨n, hn, rest⟩ := ih h hr
      exact ⟨n, List.mem_cons_of_mem _ hn, rest⟩
    · obtain ⟨n, hn, rest⟩ := ih h hr
      exact ⟨n, List.mem_cons_of_mem _ hn, rest⟩
    · rcases List.mem_append.mp hr with hr | hr
      · exact ⟨name, List.mem_cons_self, t, category, category', e, part, ht, List.mem_cons_self,
          hadm, hpart, hr⟩
      · obtain ⟨n, hn, u, k, k', e', part', hu, hid, rest⟩ := ih hmore hr
        exact ⟨n, List.mem_cons_of_mem _ hn, u, k, k', e', part', hu, List.mem_cons_of_mem _ hid, rest⟩

/-- Every type that is read is named. -/
theorem named_of_readsOfTypes {category : Category} {names : List String} {types : List TypeId}
    (h : readsOfTypes s q keys d category names = .ok (types, reads)) {id : TypeId} (hid : id ∈ types) :
    ∃ name ∈ names, ∃ t, s.schema.named? name = some t ∧ t.id = id := by
  induction names generalizing category types reads with
  | nil =>
    obtain ⟨rfl, rfl⟩ := Prod.mk.inj (Except.ok.inj h)
    cases hid
  | cons name names ih =>
    rcases readsOfTypes_cons_eq_ok.mp h with
      ⟨-, h⟩ | ⟨t, category', ht, ⟨-, h⟩ | ⟨e, part, types', more, -, -, hmore, rfl, rfl⟩⟩
    · obtain ⟨n, hn, rest⟩ := ih h hid
      exact ⟨n, List.mem_cons_of_mem _ hn, rest⟩
    · obtain ⟨n, hn, rest⟩ := ih h hid
      exact ⟨n, List.mem_cons_of_mem _ hn, rest⟩
    · rcases List.mem_cons.mp hid with rfl | hid
      · exact ⟨name, List.mem_cons_self, t, ht, rfl⟩
      · obtain ⟨n, hn, rest⟩ := ih hmore hid
        exact ⟨n, List.mem_cons_of_mem _ hn, rest⟩

theorem mem_readsOfTypes {category : Category} {names : List String} {types : List TypeId}
    (h : readsOfTypes s q keys d category names = .ok (types, reads)) {name : String}
    (hn : name ∈ names) (ht : s.schema.named? name = some t) :
    ∃ k k' end?, (category = .relation ∨ k = category) ∧ q.admitted t d k = .ok (k', end?) ∧
      ∀ e, end? = some e → ∃ part, readsOfType s q keys t e = .ok part ∧
        ∀ read ∈ part, read ∈ reads := by
  have stays {u : RelationType} {category category' k : Category} {end? : Option Direction}
      (hadm : q.admitted u d category = .ok (category', end?))
      (hk : category' = .relation ∨ k = category') : category = .relation ∨ k = category := by
    rcases category_of_admitted hadm with h | ⟨rfl, -⟩
    · exact .inl h
    · exact hk
  induction names generalizing category types reads with
  | nil => cases hn
  | cons name' names ih =>
    rcases readsOfTypes_cons_eq_ok.mp h with ⟨hnone, h⟩ |
      ⟨u, category', hu, ⟨hadm, h⟩ | ⟨e, part, types', more, hadm, hpart, hmore, rfl, rfl⟩⟩
    · rcases List.mem_cons.mp hn with rfl | hn
      · rw [ht] at hnone
        cases hnone
      · exact ih h hn
    · rcases List.mem_cons.mp hn with rfl | hn
      · obtain rfl := Option.some.inj (ht.symm.trans hu)
        exact ⟨category, category', none, .inr rfl, hadm, by simp⟩
      · obtain ⟨k, k', end?, hk, rest⟩ := ih h hn
        exact ⟨k, k', end?, stays hadm hk, rest⟩
    · rcases List.mem_cons.mp hn with rfl | hn
      · obtain rfl := Option.some.inj (ht.symm.trans hu)
        refine ⟨category, category', some e, .inr rfl, hadm, fun e' he => ?_⟩
        obtain rfl := Option.some.inj he
        exact ⟨part, hpart, fun read hread => List.mem_append_left _ hread⟩
      · obtain ⟨k, k', end?, hk, hadm', hreads⟩ := ih hmore hn
        refine ⟨k, k', end?, stays hadm hk, hadm', fun e' he => ?_⟩
        obtain ⟨part', hpart', hsub⟩ := hreads e' he
        exact ⟨part', hpart', fun read hread => List.mem_append_right _ (hsub read hread)⟩

/-- Every named type is of the category of the query. -/
theorem category_of_named {category : Category} {names : List String} {types : List TypeId}
    (h : readsOfTypes s q keys d category names = .ok (types, reads)) {name : String}
    (hn : name ∈ names) (ht : s.schema.named? name = some t) :
    Layout.ofCategory category t = true := by
  obtain ⟨k, k', end?, hk, hadm, -⟩ := mem_readsOfTypes h hn ht
  rcases hk with rfl | rfl
  · rfl
  · rcases category_of_admitted hadm with rfl | ⟨-, hc⟩
    · rfl
    · exact hc

/-- The reads of a query with type names hold a column of every relation of a named type that is
inside the intervals, at every end that is asked for and kept. -/
theorem readsOfTypes_complete (hs : s.schema.Sound) {category : Category} {names : List String}
    {types : List TypeId} (h : readsOfTypes s q keys d category names = .ok (types, reads))
    {name : String} (hn : name ∈ names) (ht : s.schema.named? name = some t)
    (hr : s.schema.type? r.typeId = some t) {es : List (Bytes × Entry)}
    (hes : Layout.entriesFor s.schema r = .ok es) (hedge : r.isEdge = t.isEdgeLabel)
    (hcov : d.covers e = true) (hst : t.storesDirection e = true)
    (hend : (e, v) ∈ Layout.ends r) (hin : keys.Inside v r) :
    ∃ read ∈ reads, ∃ layout c, Placed s.schema r v t layout e c ∧ read.slice.contains c = true := by
  obtain ⟨he, hsit⟩ := Layout.mem_ends.mp hend
  obtain ⟨k, k', end?, -, hadm, hreads⟩ := mem_readsOfTypes h hn ht
  have hprop : t.isPropertyKey = true → e = .out := by
    intro hp
    rw [RelationType.isPropertyKey_eq, ← hedge] at hp
    unfold Relation.isEdge at hp
    cases e <;> simp_all [Direction.ends, Relation.sitsAt]
  obtain ⟨f, hf, hfcov⟩ := admitted_of_covers hadm he hcov hst hprop
  obtain ⟨part, hpart, hsub⟩ := hreads f hf
  obtain ⟨read, hread, layout, c, hp, hc⟩ :=
    readsOfType_complete hs hpart hr hes hfcov hst hend hin
  exact ⟨read, hsub read hread, layout, c, hp, hc⟩

/-- No name stands for an index. -/
def NamesNoIndex (schema : Schema) (names : List String) : Prop :=
  ∀ name ∈ names, ∀ t, schema.named? name = some t → t.isIndex = false

/-- No layout of a named type repeats a key in its sort key. -/
def NamesDistinctKeys (schema : Schema) (names : List String) : Prop :=
  ∀ name ∈ names, ∀ t, schema.named? name = some t → t.DistinctKeys schema

/-- The reads of a query with type names hold columns of named types only, at ends that are asked
for. -/
theorem readsOfTypes_sound (hs : s.schema.Sound) {category : Category} {names : List String}
    (hnames : NamesNoIndex s.schema names) {types : List TypeId}
    (h : readsOfTypes s q keys d category names = .ok (types, reads)) (hr : read ∈ reads)
    (hbi : base.isIndex = false) (hp : Placed s.schema r v base layout e c)
    (hc : read.slice.contains c = true) :
    (∃ name ∈ names, s.schema.named? name = some base) ∧ base.id ∈ types ∧ d.covers e = true := by
  obtain ⟨name, hn, t, k, k', f, part, ht, hid, hadm, hpart, hread⟩ := readsOfTypes_mem h hr
  obtain ⟨rfl, hcov⟩ :=
    readsOfType_sound hs (Schema.mem_of_named ht) (hnames name hn t ht) hpart hread hbi hp hc
  exact ⟨⟨name, hn, ht⟩, hid, covers_of_admitted hadm hcov⟩

theorem readsOfTypes_fitted (hs : s.schema.Sound)
    {category : Category} {names : List String} (hk : NamesDistinctKeys s.schema names)
    {types : List TypeId} (h : readsOfTypes s q keys d category names = .ok (types, reads))
    (hr : read ∈ reads) (hp : Placed s.schema r v base layout e c)
    (hc : read.slice.contains c = true) (hf : read.fitted = true) :
    keys.fitted = true ∧ keys.Inside v r := by
  obtain ⟨name, hn, t, k, k', f, part, ht, hid, hadm, hpart, hread⟩ := readsOfTypes_mem h hr
  exact readsOfType_fitted hs (Schema.mem_of_named ht) (hk name hn t ht) hpart hread hp hc hf

/-! ## The compiled query -/

variable {category : Category} {conditions : List Condition} {compiled : CompiledQuery}

theorem compile_eq_ok (h : q.compile s category = .ok compiled) :
    (compiled = .empty ∧ (q.limit = 0 ∨ q.wantedEnd? category = none ∨
        Constraint.normalize s.schema q.constraints = .ok none)) ∨
      ∃ d conditions, q.wantedEnd? category = some d ∧
        Constraint.normalize s.schema q.constraints = .ok (some conditions) ∧
        plan s q d category conditions = .ok compiled := by
  cases hq : q.error with
  | some reason => simp [compile, hq, throw, throwThe, MonadExceptOf.throw, bind, Except.bind] at h
  | none =>
    simp only [compile, hq, Outcome.guard_eq_ok] at h
    obtain ⟨-, h⟩ := h
    split at h
    · rename_i hl
      exact .inl ⟨(Except.ok.inj h).symm, .inl hl⟩
    · split at h
      · rename_i d hd
        obtain ⟨found, hfound, h⟩ := Outcome.bind_eq_ok.mp h
        cases found with
        | none => exact .inl ⟨(Except.ok.inj h).symm, .inr (.inr hfound)⟩
        | some conditions => exact .inr ⟨d, conditions, hd, hfound, h⟩
      · rename_i hd
        refine .inl ⟨(Except.ok.inj h).symm, .inr (.inl ?_)⟩
        cases hw : q.wantedEnd? category with
        | none => rfl
        | some d => exact (hd d hw).elim

theorem plan_eq_ok (h : plan s q d category conditions = .ok compiled) :
    (q.types = [] ∧ ∃ only, untypedRead s q d category conditions = .ok only ∧
        compiled = q.finish d (conditions ++ [.category category, .visibility q.system]) [only]) ∨
      (q.types ≠ [] ∧ (KeyIntervals.ofConditions conditions q.adjacent).isUnsatisfiable = true ∧
        compiled = .empty) ∨
      (q.types ≠ [] ∧ ∃ types reads,
        readsOfTypes s q (KeyIntervals.ofConditions conditions q.adjacent) d category q.types
          = .ok (types, reads) ∧
        ((reads = [] ∧ compiled = .empty) ∨
          (reads ≠ [] ∧ compiled = q.finish d (conditions ++ [.relationType types]) reads))) := by
  unfold plan at h
  split at h
  · rename_i ht
    obtain ⟨only, honly, he⟩ := Outcome.bind_eq_ok.mp h
    exact .inl ⟨List.isEmpty_iff.mp ht, only, honly, (Except.ok.inj he).symm⟩
  · rename_i ht
    have hne : q.types ≠ [] := fun he => ht (List.isEmpty_iff.mpr he)
    dsimp only at h
    split at h
    · rename_i hu
      exact .inr (.inl ⟨hne, hu, (Except.ok.inj h).symm⟩)
    · obtain ⟨⟨types, reads⟩, hreads, h⟩ := Outcome.bind_eq_ok.mp h
      refine .inr (.inr ⟨hne, types, reads, hreads, ?_⟩)
      dsimp only at h
      split at h
      · rename_i he
        exact .inl ⟨List.isEmpty_iff.mp he, (Except.ok.inj h).symm⟩
      · rename_i he
        exact .inr ⟨fun hr => he (List.isEmpty_iff.mpr hr), (Except.ok.inj h).symm⟩

theorem unwrapped_and (cs : List Condition) :
    (∃ c, cs = [c] ∧ c.isLeaf = true ∧ (Condition.and cs).unwrapped = c) ∨
      (Condition.and cs).unwrapped = .and cs := by
  unfold Condition.unwrapped
  split
  · rename_i c he
    obtain rfl := Condition.and.inj he
    split
    · rename_i hl
      exact .inl ⟨c, rfl, hl, rfl⟩
    · exact .inr rfl
  · exact .inr rfl

theorem bind_finish (hne : reads ≠ []) (adjacent : Option Adjacent) :
    (q.finish d conditions reads).bind v adjacent = .and (conditions ++ [.direction v d] ++
      match adjacent with
      | some a => [.incidence v a.vertex]
      | none => []) := by
  have hempty : (q.finish d conditions reads).isEmpty = false := by
    simp [finish, CompiledQuery.isEmpty, hne]
  unfold CompiledQuery.bind
  rw [hempty]
  simp only [finish, Bool.false_eq_true, if_false]
  rcases unwrapped_and conditions with ⟨c, rfl, hl, hu⟩ | hu
  · rw [hu]
    cases c <;> first | rfl | cases hl
  · cases adjacent <;> rw [hu]

/-- The condition bound to a vertex: the conditions of the query hold, the vertex sits at the end that
is asked for, and the relation leads to the adjacent vertex. -/
theorem evaluate_bind (hne : reads ≠ []) :
    ((q.finish d conditions reads).bind v q.adjacent).evaluate r v = true ↔
      (∀ c ∈ conditions, c.evaluate r v = true) ∧ r.sitsAt v d = true ∧
        KeyIntervals.leadsTo q.adjacent v r := by
  have hlead (hs : r.sitsAt v d = true) (w : VertexId) :
      (Condition.incidence v w).evaluate r v = true ↔ r.otherVertex? v = some w := by
    simp [Condition.evaluate, Relation.isIncident_of_sitsAt hs]
  rw [bind_finish hne]
  simp only [Condition.evaluate, Condition.holdsAll_iff, List.mem_append, or_imp, forall_and,
    List.mem_singleton, forall_eq, and_assoc]
  refine and_congr_right fun _ => and_congr_right fun hs => ?_
  cases ha : q.adjacent with
  | none => simp [KeyIntervals.leadsTo]
  | some a =>
    simp only [List.mem_singleton, forall_eq, hlead hs, KeyIntervals.leadsTo, Option.some.injEq]
    simp [eq_comm]

end Query

end RowGraph
