import RowGraph.Proofs.OwnWrites
import RowGraph.Proofs.RepeatedReads

/-!
# Distinct answers

An answer is made of what the slices of the query hold and of what was added, each as often as it stands there,
cut and sorted (`GraphView.individual_part`).  So it has no relation twice if the slices hold none twice:
`answers_distinct`, whatever else the query asks for.

A query that names a type twice, or a type and an index over it, and a query that finds a loop at both of its
ends has a relation twice (`answered_twice`).
-/

namespace RowGraph

/-! ## What an answer is made of -/

namespace GraphView

variable {σ : Type} {view : GraphView σ} {inv : σ → Prop} {v : VertexId} {row : Row}
  {condition : Condition} {q : CompiledQuery} {read : PlannedRead}

/-- What the view reads in a slice, if it can, is what decodes from the row. -/
def ReadsExactly (view : GraphView σ) (inv : σ → Prop) (v : VertexId) (row : Row) : Prop :=
  ∀ slice, (view.read v slice).Ensures inv (· = row.relations slice)

theorem readUntil_part (h : view.ReadsExactly inv v row) (target limit : Nat) :
    (view.readUntil v condition read target limit).Ensures inv
      (List.Sublist · (view.counting v condition row read)) := by
  induction hn : view.hardMax - limit using Nat.strongRecOn generalizing limit with
  | ind n ih =>
    unfold readUntil
    refine (h _).bind fun found hfound => ?_
    dsimp only
    split
    · rename_i hmore
      have hle : ReadLimit.next limit view.hardMax ≤ view.hardMax := Nat.min_le_right ..
      exact ih _ (by omega) _ rfl
    · refine Act.ensures_pure ?_
      rw [hfound]
      exact Row.relations_sublist.filter _

/-- A read answers a part of what counts in its slice, and all of it if it has no limit. -/
theorem readAll_part (h : view.ReadsExactly inv v row) :
    (view.readAll v q condition read).Ensures inv fun part =>
      part.Sublist (view.counting v condition row read) ∧
        (read.slice.limit = none → part = view.counting v condition row read) := by
  unfold readAll
  split
  · rename_i hl
    refine (h _).bind fun found hfound => Act.ensures_pure ?_
    have hall : view.kept v condition read.fitted found = view.counting v condition row read := by
      rw [hfound, counting, Row.withLimit_eq_self hl]
    exact ⟨hall ▸ List.Sublist.refl _, fun _ => hall⟩
  · rename_i limit hl
    refine (readUntil_part h _ _).mono fun part hpart => ⟨hpart, fun hnone => ?_⟩
    rw [hl] at hnone
    cases hnone


/-- All that the slices of a query hold. -/
def held (row : Row) (q : CompiledQuery) : List Relation :=
  q.reads.flatMap fun read => row.relations (read.slice.withLimit none)

theorem flatten_parts {found : PlannedRead → List Relation} {reads : List PlannedRead}
    {parts : List (List Relation)}
    (h : List.Forall₂ (fun read part => part.Sublist (found read) ∧
      (read.slice.limit = none → part = found read)) reads parts) :
    parts.flatten.Sublist (reads.flatMap found) ∧
      ((∀ read ∈ reads, read.slice.limit = none) → parts.flatten = reads.flatMap found) := by
  induction h with
  | nil => exact ⟨.slnil, fun _ => rfl⟩
  | cons hpart _ ih =>
    refine ⟨hpart.1.append ih.1, fun hl => ?_⟩
    obtain ⟨hread, hl⟩ := List.forall_mem_cons.mp hl
    rw [List.flatten_cons, hpart.2 hread, ih.2 hl, List.flatMap_cons]

/-- An answer is made of what counts in the slices and what was added, and is all of it if the query has no
limit. -/
theorem general_part (h : view.ReadsExactly inv v row) :
    (view.general v q condition).Ensures inv fun found =>
      found.Subperm (view.candidates v q condition row) ∧
        (q.limit = ReadLimit.most → (∀ read ∈ q.reads, read.slice.limit = none) →
          found.Perm (view.candidates v q condition row)) := by
  unfold general
  refine (Act.ensures_forall₂ fun read _ => readAll_part h).bind fun parts hparts => Act.ensures_pure ?_
  obtain ⟨hsub, hall⟩ := flatten_parts hparts
  have hsorted := perm_arranged (v := v) (q := q)
    (parts.flatten ++ (view.addedAt v).filter fun r => condition.evaluate r v)
  refine ⟨(ReadLimit.cut_sublist ..).subperm.trans (hsorted.subperm.trans (hsub.append_right _).subperm), fun hq hl => ?_⟩
  rw [ReadLimit.cut, if_pos hq, candidates, ← hall hl]
  exact hsorted

/-- The answer to a simple query is made of what its slice holds, and is all of it if the query has no limit. -/
theorem simple_part (h : view.ReadsExactly inv v row) (hsimple : q.isSimple = true) :
    (view.simple v q).Ensures inv fun found => found.Subperm (held row q) ∧
      (q.limit = ReadLimit.most → (∀ read ∈ q.reads, read.slice.limit = none) → found.Perm (held row q)) := by
  obtain ⟨read, hreads, -⟩ := CompiledQuery.isSimple_iff.mp hsimple
  unfold simple held
  rw [hreads]
  refine (h _).bind fun found hfound => Act.ensures_pure ?_
  rw [List.flatMap_singleton, hfound]
  refine ⟨(ReadLimit.cut_sublist ..).subperm.trans Row.relations_sublist.subperm, fun hq hl => ?_⟩
  rw [ReadLimit.cut, if_pos hq, Row.withLimit_eq_self (hl read (List.mem_singleton_self _))]

/-- What an answer is made of: all that the slices hold, or what counts in them and what was added. -/
def source (view : GraphView σ) (e : Execution) (v : VertexId) (row : Row) : List Relation :=
  if e.query.isSimple && (e.onlyLoaded || view.isLoaded v) then held row e.query
  else view.candidates v e.query (e.query.bind v e.adjacent) row

/-- The answer of one row is made of its source, and is all of it if the query has no limit. -/
theorem individual_part (h : view.ReadsExactly inv v row) (e : Execution) :
    (e.individual view v).Ensures inv fun found => found.Subperm (view.source e v row) ∧
      (e.query.limit = ReadLimit.most → (∀ read ∈ e.query.reads, read.slice.limit = none) →
        found.Perm (view.source e v row)) := by
  unfold Execution.individual source
  split
  · rename_i hsimple
    exact simple_part h (Bool.and_eq_true _ _ ▸ hsimple).1
  · exact general_part h

/-- What was not added comes from the slices. -/
theorem count_candidates {r : Relation} (h : r ∉ view.addedAt v) :
    (view.candidates v q condition row).count r = (q.reads.flatMap (view.counting v condition row)).count r := by
  have hnone : ((view.addedAt v).filter fun r => condition.evaluate r v).count r = 0 :=
    List.count_eq_zero.mpr fun hmem => h (List.mem_filter.mp hmem).1
  rw [candidates, List.count_append, hnone, Nat.add_zero]

theorem count_candidates_le {r : Relation} (h : r ∉ view.addedAt v) :
    (view.candidates v q condition row).count r ≤ row.times r q.reads := by
  rw [count_candidates h]
  exact (List.Sublist.flatMap_right q.reads fun read _ => List.filter_sublist).count_le r

theorem count_candidates_eq {r : Relation} (h : r ∉ view.addedAt v) (hkept : view.isRemoved r.id = false)
    (hcond : condition.evaluate r v = true) : (view.candidates v q condition row).count r = row.times r q.reads := by
  rw [count_candidates h, Row.times, List.count_flatMap, List.count_flatMap]
  refine congrArg List.sum (List.map_congr_left fun read hread => List.count_filter ?_)
  rw [hkept, hcond, Bool.or_true]
  rfl

theorem count_source_eq {e : Execution} {r : Relation} (h : r ∉ view.addedAt v)
    (hkept : view.isRemoved r.id = false) (hcond : (e.query.bind v e.adjacent).evaluate r v = true) :
    (view.source e v row).count r = row.times r e.query.reads := by
  unfold source
  split
  · rfl
  · exact count_candidates_eq h hkept hcond

end GraphView

/-! ## Answers without repetition -/

namespace GraphTx

variable {g : GraphTx StoreHandle TxHandle} {memory : Memory} {v : VertexId} {schema : Schema}
  {relations : List Relation} {q : Query} {category : Category} {compiled : CompiledQuery}
  {allowed : Relation → Prop}

theorem nodup_implicitAnswer {key : ImplicitKey} {label? : Option String} :
    ((q.implicitAnswer label? v key).map (·.id)).Nodup := by
  unfold Query.implicitAnswer
  split
  · exact List.nodup_nil
  · split
    · exact List.nodup_singleton _
    · exact List.nodup_nil

/-- Asking an unpartitioned vertex computes the value of an implicit key, or runs the compiled query on the
row of the vertex. -/
theorem answer_ensures (hwhole : g.isPartitioned v = false) (features : Features) {P : List Relation → Prop}
    (himplicit : ∀ key, q.implicitKey? schema category = some key → P (q.implicitAnswer (g.label? v) v key))
    (hnothing : ∀ compiled, q.implicitKey? schema category = none →
      q.compile (g.setting schema) category = .ok compiled → compiled.isEmpty = true → P [])
    (hrun : ∀ compiled, q.implicitKey? schema category = none →
      q.compile (g.setting schema) category = .ok compiled → compiled.isEmpty = false →
        ((execution schema q compiled).individual (g.view (Local.backend features)) v).Ensures
          (fun s => s.memory = memory) P) :
    (g.answer features schema q category v).Ensures (fun s => s.memory = memory) P := by
  unfold answer askRelations
  cases hkey : q.implicitKey? schema category with
  | some key => exact Act.ensures_pure (himplicit key hkey)
  | none =>
    have hcompile : (g.compileToRun schema q category).Ensures (fun s : Local => s.memory = memory)
        fun compiled => q.compile (g.setting schema) category = .ok compiled := by
      unfold compileToRun compile
      refine .bind (P := (q.compile (g.setting schema) category = .ok ·)) ?_ fun c hc => ?_
      · refine .bind (Act.ensures_ofOutcome fun _ h => h) fun c hc => ?_
        refine .bind (P := fun _ => True) (Act.ensures_update fun s hs => ?_) fun _ _ => Act.ensures_pure hc
        exact hs
      · exact .bind (P := fun _ => True) (Act.ensures_ofOutcome fun _ _ => trivial) fun _ _ => Act.ensures_pure hc
    dsimp only
    rw [bind_assoc]
    refine hcompile.bind fun compiled hc => ?_
    cases hempty : compiled.isEmpty with
    | true => exact Act.ensures_pure (hnothing compiled hkey hc hempty)
    | false =>
      change ((execution schema q compiled).relations (g.view (Local.backend features)) v).Ensures _ _
      rw [Execution.relations_of_whole hwhole]
      exact hrun compiled hkey hc hempty


/-- A row holds committed relations only. -/
theorem readsExactly (g : GraphTx StoreHandle TxHandle) (features : Features) (memory : Memory) (v : VertexId) :
    (g.view (Local.backend features)).ReadsExactly (fun s => s.memory = memory) v (g.rowAt memory v) :=
  g.readSlice_exact features v

/-- The relations that an answer is made of have ids of their own. -/
theorem ids_source (hstore : Committed schema relations (memory.table g.store.number))
    (hchanged : g.Changed allowed relations) {features : Features} {e : Execution} :
    ∀ r ∈ (g.view (Local.backend features)).source e v (g.rowAt memory v),
      ∀ r' ∈ (g.view (Local.backend features)).source e v (g.rowAt memory v), r.id = r'.id → r = r' := by
  have hstored {read : PlannedRead} {r : Relation}
      (h : r ∈ (g.rowAt memory v).relations (read.slice.withLimit none)) : r ∈ relations :=
    (hstore.mem_relations.mp h).1
  unfold GraphView.source
  split
  · intro r hr r' hr'
    obtain ⟨read, -, hr⟩ := List.mem_flatMap.mp hr
    obtain ⟨read', -, hr'⟩ := List.mem_flatMap.mp hr'
    exact hstore.ids r (hstored hr) r' (hstored hr')
  · have hvisible {r : Relation} (h : r ∈ (g.view (Local.backend features)).candidates v e.query
        (e.query.bind v e.adjacent) (g.rowAt memory v)) : r ∈ g.visible relations := by
      rcases List.mem_append.mp h with h | h
      · obtain ⟨read, -, hr⟩ := List.mem_flatMap.mp h
        obtain ⟨hr, hkept, -⟩ := GraphView.mem_kept.mp hr
        exact mem_visible.mpr (.inl ⟨hstored hr, hkept⟩)
      · exact mem_visible.mpr (.inr (List.mem_filter.mp (List.mem_filter.mp h).1).1)
    exact fun r hr r' hr' => hchanged.ids hstore.ids r (hvisible hr) r' (hvisible hr')

/-- If the slices hold no committed relation twice, an answer is made of distinct relations. -/
theorem nodup_source (hstore : Committed schema relations (memory.table g.store.number))
    (hchanged : g.Changed allowed relations) {features : Features} {e : Execution}
    (honce : ∀ r ∈ relations, (g.rowAt memory v).times r e.query.reads ≤ 1) :
    ((g.view (Local.backend features)).source e v (g.rowAt memory v)).Nodup := by
  have hslices (r : Relation) : (g.rowAt memory v).times r e.query.reads ≤ 1 := by
    by_cases hr : r ∈ relations
    · exact honce r hr
    · refine Nat.le_trans (Nat.le_of_eq (Row.times_eq_zero_iff.mpr fun _ _ hmem => hr ?_)) (Nat.zero_le 1)
      exact (hstore.mem_relations.mp hmem).1
  refine List.nodup_iff_count_le_one.mpr fun r => ?_
  unfold GraphView.source
  split
  · exact hslices r
  · by_cases hr : r ∈ g.addedAt v
    · -- a relation that was added counts in no slice, and once among those that were added
      have hnone : (e.query.reads.flatMap ((g.view (Local.backend features)).counting v
          (e.query.bind v e.adjacent) (g.rowAt memory v))).count r = 0 := by
        refine List.count_eq_zero.mpr fun hmem => ?_
        obtain ⟨read, -, hmem⟩ := List.mem_flatMap.mp hmem
        obtain ⟨hmem, hkept, -⟩ := GraphView.mem_kept.mp hmem
        exact hchanged.fresh (List.mem_filter.mp hr).1 (hstore.mem_relations.mp hmem).1 hkept rfl
      have hadded : ((g.addedAt v).filter fun r => (e.query.bind v e.adjacent).evaluate r v).Nodup :=
        ((hchanged.pairwise_added.imp fun hne he => hne (congrArg Relation.id he)).filter _).filter _
      rw [GraphView.candidates, List.count_append, hnone, Nat.zero_add]
      exact List.nodup_iff_count_le_one.mp hadded r
    · exact Nat.le_trans (GraphView.count_candidates_le hr) (hslices r)

/-- No relation is answered twice that is not asked for twice: whatever the query and its limit, the answer of
an unpartitioned vertex has no id twice if no committed relation is asked for more than once there.  And an
answer without a limit has every relation that is selected just as often as it is asked for. -/
theorem answers_distinct (hs : schema.Built) (features : Features)
    (hstore : Committed schema relations (memory.table g.store.number))
    (hchanged : g.Changed allowed relations) (hwhole : g.isPartitioned v = false) (q : Query)
    (category : Category) :
    (g.answer features schema q category v).Ensures (fun s => s.memory = memory) fun found =>
      ((∀ r ∈ relations, q.timesAsked schema v r ≤ 1) → (found.map (·.id)).Nodup) ∧
      (q.limit = ReadLimit.most → q.implicitKey? schema category = none →
        Query.NamesNoIndex schema q.types → Query.NamesDistinctKeys schema q.types →
          ∀ r ∈ relations, g.isRemoved r.id = false → q.Selects schema category v r →
            found.count r = q.timesAsked schema v r) := by
  have hzero (hlimit : q.limit = ReadLimit.most) : q.limit ≠ 0 := by
    rw [hlimit]
    decide
  have htimes {compiled : CompiledQuery} (hc : q.compile (g.setting schema) category = .ok compiled)
      (hlimit : q.limit = ReadLimit.most) (hnames : Query.NamesNoIndex schema q.types) {r : Relation}
      (hr : r ∈ relations) (hsel : q.Selects schema category v r) :
      (g.rowAt memory v).times r compiled.reads = q.timesAsked schema v r :=
    Query.times_compile_eq (s := g.setting schema) hs.sound hstore hr hnames (hzero hlimit) hc hsel
  refine answer_ensures hwhole features (fun key hkey => ⟨fun _ => ?_, fun _ hnone => ?_⟩)
    (fun compiled _ hc hempty => ⟨fun _ => List.nodup_nil, fun hlimit _ hnames _ r hr _ hsel => ?_⟩)
    fun compiled _ hc hne => (GraphView.individual_part (g.readsExactly features memory v)
      (execution schema q compiled)).mono fun found h => ⟨fun hasked => ?_, ?_⟩
  · exact nodup_implicitAnswer
  · rw [hkey] at hnone
    cases hnone
  · rw [← htimes hc hlimit hnames hr hsel, List.isEmpty_iff.mp hempty]
    rfl
  · obtain ⟨distinct, hperm, hsub⟩ := h.1
    have honce : ∀ r ∈ relations, (g.rowAt memory v).times r compiled.reads ≤ 1 := fun r hr =>
      Nat.le_trans (Query.times_compile_le (s := g.setting schema) hs.sound hstore hr hc) (hasked r hr)
    have hdistinct := (nodup_source hstore hchanged honce).sublist hsub
    refine List.Nodup.map_on (fun r hr r' hr' => ?_) (hperm.nodup_iff.mp hdistinct)
    exact ids_source hstore hchanged r (hsub.subset (hperm.mem_iff.mpr hr)) r'
      (hsub.subset (hperm.mem_iff.mpr hr'))
  · intro hlimit _ hnames hkeys r hr hkept hsel
    obtain ⟨hcl, -, hcovers⟩ := Query.compile_limits hc hne
    have hall := h.2 (hcl.trans hlimit) fun read hread => (hcovers read hread).1.mpr (if_pos hlimit)
    have hadded : r ∉ g.addedAt v := fun hmem =>
      hchanged.fresh (List.mem_filter.mp hmem).1 hr hkept rfl
    have hcond : (compiled.bind v q.adjacent).evaluate r v = true :=
      Query.evaluate_of_selects (s := g.setting schema) hs.sound hstore hr hnames hkeys (hzero hlimit) hc hsel
    rw [hall.count_eq, GraphView.count_source_eq hadded hkept hcond]
    exact htimes hc hlimit hnames hr hsel

theorem answers_distinct_rated :
    ∃ found, ((Rated.reader.answer Memory.defaultFeatures Rated.schema
        (Rated.reader.query Rated.schema Rated.nines) .edge ⟨1⟩).exec Rated.opened.2).1 = .ok found ∧ (found.map (·.id)).Nodup ∧
      found.count (Rated.rating 9 9) =
        (Rated.reader.query Rated.schema Rated.nines).timesAsked Rated.schema ⟨1⟩ (Rated.rating 9 9) := by
  have hfound : ((Rated.reader.answer Memory.defaultFeatures Rated.schema
      (Rated.reader.query Rated.schema Rated.nines) .edge ⟨1⟩).exec Rated.opened.2).1 = .ok _ :=
    Outcome.eq_ok_getD (by decide +kernel) []
  have hchanged : Rated.reader.Changed (fun _ => True) [Rated.rating 9 9, Rated.rating 7 1] :=
    .unchanged (by decide +kernel) (by decide +kernel)
  obtain ⟨hdistinct, hcount⟩ := (answers_distinct Rated.schema_built Memory.defaultFeatures Rated.committed
    hchanged (v := ⟨1⟩) (by decide +kernel) (Rated.reader.query Rated.schema Rated.nines) .edge
    Rated.opened.2 rfl).2 _ hfound
  have hall : ∀ t ∈ Rated.schema.types, t.sortKey.Nodup ∧ t.isIndex = false := by decide +kernel
  refine ⟨_, hfound, hdistinct fun r hr => ?_, ?_⟩
  · refine Query.timesAsked_le_one (by decide +kernel) ?_
    exact (by decide +kernel : ∀ r ∈ [Rated.rating 9 9, Rated.rating 7 1], r.inVertex ≠ some r.outVertex) r hr
  · refine hcount (by decide +kernel) (by decide +kernel) (fun _ _ t ht => (hall t (Schema.mem_of_named ht)).2)
      (fun _ _ _ _ layout hl _ => (hall layout hl).1) _ (by decide +kernel) (by decide +kernel) ?_
    have htyped : Rated.schema.type? (Rated.rating 9 9).typeId = some _ :=
      Option.eq_some_of_isSome (by decide +kernel)
    refine ⟨_, htyped, by decide +kernel, by decide +kernel, ?_, ?_⟩
    · have hnone : (Rated.reader.query Rated.schema Rated.nines).adjacent = none := by decide +kernel
      intro a ha
      rw [hnone] at ha
      cases ha
    · rw [if_neg (by decide +kernel)]
      exact ⟨⟨"rated", by decide +kernel, by decide +kernel⟩, .out, by decide +kernel⟩

end GraphTx

/-! ## Where relations are answered twice -/

/-- A type is named twice, a type and an index over it are named, and a loop is found at both of its ends, with
the name of its type and, whatever the direction, without. -/
theorem answered_twice :
    Likes.answer [.edge ⟨7⟩ ⟨1026⟩ ⟨1⟩ ⟨2⟩] [] [.types ["friend", "friend"]] .edge =
        some [.edge ⟨7⟩ ⟨1026⟩ ⟨1⟩ ⟨2⟩, .edge ⟨7⟩ ⟨1026⟩ ⟨1⟩ ⟨2⟩] ∧
      Likes.answer [.edge ⟨7⟩ ⟨1024⟩ ⟨1⟩ ⟨2⟩] [] [.types ["likes", "liked"], .direction .out] .edge =
        some [.edge ⟨7⟩ ⟨1024⟩ ⟨1⟩ ⟨2⟩, .edge ⟨7⟩ ⟨1024⟩ ⟨1⟩ ⟨2⟩] ∧
      Likes.answer [.edge ⟨7⟩ ⟨1026⟩ ⟨1⟩ ⟨1⟩] [] [.types ["friend"]] .edge =
        some [.edge ⟨7⟩ ⟨1026⟩ ⟨1⟩ ⟨1⟩, .edge ⟨7⟩ ⟨1026⟩ ⟨1⟩ ⟨1⟩] ∧
      Likes.answer [.edge ⟨7⟩ ⟨1026⟩ ⟨1⟩ ⟨1⟩] [] [.direction .out] .relation =
        some [.edge ⟨7⟩ ⟨1026⟩ ⟨1⟩ ⟨1⟩, .edge ⟨7⟩ ⟨1026⟩ ⟨1⟩ ⟨1⟩] := by
  decide +kernel

end RowGraph
