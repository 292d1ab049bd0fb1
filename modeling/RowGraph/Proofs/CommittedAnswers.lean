import RowGraph.Proofs.FittedReads
import RowGraph.Proofs.LocalChanges

/-!
# Queries answer what filtering would

`Query.Selects` says which relations a query asks for, without slices or layouts.  The reads of the
compiled query together with its condition find these among the committed relations, and no others
(`found_iff_selects`), so asking a vertex without local changes gives them (`answers_filter`).

A query without type names looks at the end where the vertex sits, whichever end the type keeps, so
it finds a loop at an end that is not kept (`answers_not_filter`).
-/

namespace RowGraph

open Layout (Placed)

namespace Query

/-- The relation is among those the query asks for: of the category, satisfying the constraints and
leading to the adjacent vertex.  With type names its type is one of them, and the vertex sits at an end
that is asked for and kept.  Without, its visibility is the one asked for, and the vertex sits at the
end that is asked for and at one that is kept. -/
def Selects (schema : Schema) (q : Query) (category : Category) (v : VertexId) (r : Relation) : Prop :=
  ∃ base, schema.type? r.typeId = some base ∧ Condition.inCategory category r = true ∧
    (∀ c ∈ q.constraints, c.holds schema v r = true) ∧ KeyIntervals.leadsTo q.adjacent v r ∧
    if q.types = [] then
      base.isSystem = q.system ∧ r.sitsAt v q.direction = true ∧
        ∃ e ∈ Direction.ends, base.storesDirection e = true ∧ r.sitsAt v e = true
    else
      (∃ name ∈ q.types, schema.named? name = some base) ∧
        ∃ e ∈ Direction.ends, q.direction.covers e = true ∧ base.storesDirection e = true ∧
          r.sitsAt v e = true

/-! ## Wanted ends -/

section

variable {q : Query} {category : Category} {d : Direction} {r : Relation} {v : VertexId}

theorem inVertex_of_property (h : Condition.inCategory .property r = true) : r.inVertex = none := by
  cases hv : r.inVertex with
  | none => rfl
  | some w => simp [Condition.inCategory, Relation.category, Relation.isEdge, hv] at h

theorem wantedEnd?_eq (h : q.wantedEnd? category = some d) :
    d = q.direction ∨ category = .property ∧ d = .out ∧ q.direction ≠ .into := by
  unfold wantedEnd? at h
  split at h
  · rename_i hc
    split at h
    · cases h
    · rename_i hd
      exact .inr ⟨hc, (Option.some.inj h).symm, hd⟩
  · exact .inl (Option.some.inj h).symm

theorem sitsAt_wanted (h : q.wantedEnd? category = some d)
    (hc : Condition.inCategory category r = true) : r.sitsAt v d = r.sitsAt v q.direction := by
  rcases wantedEnd?_eq h with rfl | ⟨rfl, rfl, hd⟩
  · rfl
  · have hin := inVertex_of_property hc
    cases hq : q.direction <;> simp_all [Relation.sitsAt, Relation.isIncident]

theorem covers_wanted (h : q.wantedEnd? category = some d)
    (hc : Condition.inCategory category r = true) {e : Direction} (he : e ∈ Direction.ends)
    (hsit : r.sitsAt v e = true) : d.covers e = true ↔ q.direction.covers e = true := by
  rcases wantedEnd?_eq h with rfl | ⟨rfl, rfl, hd⟩
  · rfl
  · have hin := inVertex_of_property hc
    cases hq : q.direction <;> cases e <;>
      simp_all [Relation.sitsAt, Direction.ends, Direction.covers]

/-- Where no end is wanted there is nothing to select. -/
theorem not_sitsAt_of_unwanted (h : q.wantedEnd? category = none)
    (hc : Condition.inCategory category r = true) : q.direction = .into ∧ r.sitsAt v .into = false := by
  unfold wantedEnd? at h
  split at h
  · rename_i hp
    subst hp
    split at h
    · rename_i hd
      exact ⟨hd, by simp [Relation.sitsAt, inVertex_of_property hc]⟩
    · cases h
  · cases h

end

/-! ## What the reads find -/

section

variable {s : Setting} {q : Query} {category : Category} {compiled : CompiledQuery} {r : Relation}
  {v : VertexId}

/-- The reads of a compiled query find a relation: it has a column in one of the slices, and satisfies
the condition unless the slice makes sure of that. -/
def Finds (schema : Schema) (q : Query) (compiled : CompiledQuery) (v : VertexId) (r : Relation) :
    Prop :=
  ∃ read ∈ compiled.reads,
    (∃ base layout e c, Placed schema r v base layout e c ∧ read.slice.contains c = true) ∧
      (read.fitted = true ∨ (compiled.bind v q.adjacent).evaluate r v = true)

/-- What the reads find is selected. -/
theorem selects_of_finds (hs : s.schema.Sound) (hnames : NamesNoIndex s.schema q.types)
    (hkeys : NamesDistinctKeys s.schema q.types) (h : q.compile s category = .ok compiled)
    {type : RelationType} (hfit : r.Fits s.schema type) (hindex : type.isIndex = false)
    (hfound : q.Finds s.schema compiled v r) : q.Selects s.schema category v r := by
  obtain ⟨read, hread, ⟨base, layout, e, c, hp, hc⟩, hchecked⟩ := hfound
  obtain rfl := Option.some.inj (hfit.typed.symm.trans hp.typed)
  have hcond : (compiled.bind v q.adjacent).evaluate r v = true := by
    rcases hchecked with hf | hcond
    · exact fitted_satisfies hs hnames hkeys h hread hf hfit hindex hp hc
    · exact hcond
  have hsit := hp.sitsAt
  have hend := (Layout.mem_ends.mp hp.sits).1
  rcases compile_eq_ok h with ⟨rfl, -⟩ | ⟨d, conditions, hwanted, hnormal, hplan⟩
  · cases hread
  · rcases plan_eq_ok hplan with ⟨htypes, only, honly, rfl⟩ | ⟨-, -, rfl⟩ |
      ⟨htypes, types, reads, hreads, he⟩
    · obtain rfl := List.mem_singleton.mp hread
      obtain ⟨hcat, hvis, rfl⟩ := untyped_conditions hs hfit hindex hp honly hc
      rw [evaluate_bind (by simp)] at hcond
      obtain ⟨hconds, hd, hlead⟩ := hcond
      refine ⟨layout, hp.typed, hcat, ?_, hlead, ?_⟩
      · refine (Constraint.normalize_some hnormal).mp fun cond hcond => ?_
        exact hconds cond (List.mem_append_left _ hcond)
      · rw [if_pos htypes]
        refine ⟨?_, ?_, e, hend, hp.stored, hsit⟩
        · rw [Condition.evaluate, ← Schema.id_of_type hp.typed] at hvis
          exact beq_iff_eq.mp hvis
        · rw [← sitsAt_wanted hwanted hcat]
          exact hd
    · cases hread
    · rcases he with ⟨-, rfl⟩ | ⟨hne, rfl⟩
      · cases hread
      · obtain ⟨⟨name, hname, hnamed⟩, -, hcov⟩ := readsOfTypes_sound hs hnames hreads hread hindex hp hc
        have hcat : Condition.inCategory category r = true := by
          rw [inCategory_iff hfit.category]
          exact category_of_named hreads hname hnamed
        rw [evaluate_bind hne] at hcond
        obtain ⟨hconds, -, hlead⟩ := hcond
        have hstored : type.storesDirection e = true := by
          rcases (hp.layout hs).2 with rfl | hover
          · exact hp.stored
          · exact hover.storesDirection e hp.stored
        refine ⟨type, hp.typed, hcat, ?_, hlead, ?_⟩
        · refine (Constraint.normalize_some hnormal).mp fun cond hcond => ?_
          exact hconds cond (List.mem_append_left _ hcond)
        · rw [if_neg htypes]
          refine ⟨⟨name, hname, hnamed⟩, e, hend, ?_, hstored, hsit⟩
          exact (covers_wanted hwanted hcat hend hsit).mp hcov

/-- What is selected is found by the reads of a query without type names. -/
theorem finds_untyped (hs : s.schema.Sound) {type : RelationType} (hfit : r.Fits s.schema type)
    (hindex : type.isIndex = false) {es : List (Bytes × Entry)}
    (hes : Layout.entriesFor s.schema r = .ok es) {d : Direction} {conditions : List Condition}
    {only : PlannedRead} (honly : untypedRead s q d category conditions = .ok only)
    (hcat : Condition.inCategory category r = true) (hsys : type.isSystem = q.system)
    (hconds : ∀ cond ∈ conditions, cond.evaluate r v = true) (hlead : KeyIntervals.leadsTo q.adjacent v r)
    (hd : r.sitsAt v d = true) {e : Direction} (hend : (e, v) ∈ Layout.ends r)
    (hst : type.storesDirection e = true) :
    q.Finds s.schema
      (q.finish d (conditions ++ [.category category, .visibility q.system]) [only]) v r := by
  obtain ⟨layouts, hl⟩ := Layout.keptLayouts_ok hes hfit.typed
  obtain ⟨c, hp⟩ := Layout.exists_placed hes hfit.typed hl (Layout.mem_keptLayouts_self hl) hst hend
  obtain ⟨slice, hslice, ⟨limit, -, he⟩, -⟩ := untypedRead_eq_ok honly
  refine ⟨only, List.mem_singleton.mpr rfl, ⟨type, type, e, c, hp, ?_⟩, .inr ?_⟩
  · rw [he, ReadPlan.contains_withLimit, Layout.contains_categorySlice hs hp hslice]
    exact ⟨hindex, hsys, by rw [← inCategory_iff hfit.category]; exact hcat⟩
  · rw [evaluate_bind (by simp)]
    refine ⟨fun cond hcond => ?_, hd, hlead⟩
    simp only [List.mem_append, List.mem_cons, List.not_mem_nil, or_false] at hcond
    rcases hcond with hcond | rfl | rfl
    · exact hconds cond hcond
    · exact hcat
    · rw [Condition.evaluate, ← Schema.id_of_type hfit.typed]
      exact beq_iff_eq.mpr hsys

/-- What is selected is found by the reads of a compiled query. -/
theorem finds_of_selects (hs : s.schema.Sound) (hnames : NamesNoIndex s.schema q.types)
    (h : q.compile s category = .ok compiled) (hlimit : q.limit ≠ 0) {type : RelationType}
    (hfit : r.Fits s.schema type) (hindex : type.isIndex = false) {es : List (Bytes × Entry)}
    (hes : Layout.entriesFor s.schema r = .ok es) (hsel : q.Selects s.schema category v r) :
    q.Finds s.schema compiled v r := by
  obtain ⟨base, htyped, hcat, hconstraints, hlead, hplace⟩ := hsel
  obtain rfl := Option.some.inj (hfit.typed.symm.trans htyped)
  rcases compile_eq_ok h with ⟨-, hzero | hunwanted | hnone⟩ | ⟨d, conditions, hwanted, hnormal, hplan⟩
  · exact absurd hzero hlimit
  · obtain ⟨hinto, hsit⟩ := not_sitsAt_of_unwanted (v := v) hunwanted hcat
    split at hplace
    · rw [hinto, hsit] at hplace
      exact absurd hplace.2.1 (by simp)
    · obtain ⟨-, e, he, hcov, -, hsite⟩ := hplace
      rw [hinto] at hcov
      cases e with
      | out => cases hcov
      | into => rw [hsit] at hsite; cases hsite
      | both => simp [Direction.ends] at he
  · obtain ⟨c, hc, hfails⟩ := Constraint.normalizeFrom_none hnone v r
    rw [hconstraints c hc] at hfails
    cases hfails
  · have hconds := (Constraint.normalize_some hnormal).mpr hconstraints
    rcases plan_eq_ok hplan with ⟨htypes, only, honly, rfl⟩ | ⟨htypes, hunsat, rfl⟩ |
      ⟨htypes, types, reads, hreads, he⟩
    · rw [if_pos htypes] at hplace
      obtain ⟨hsys, hd, e, he, hst, hsit⟩ := hplace
      rw [← sitsAt_wanted hwanted hcat] at hd
      exact finds_untyped hs hfit hindex hes honly hcat hsys hconds hlead hd
        (Layout.mem_ends.mpr ⟨he, hsit⟩) hst
    all_goals
      have hinside := KeyIntervals.inside_ofConditions (kindsFit_of_fits hs hfit v)
        (Constraint.normalize_typed hs hnormal) hconds hlead
    · exact absurd hinside (KeyIntervals.not_inside_of_isUnsatisfiable hunsat)
    · rw [if_neg htypes] at hplace
      obtain ⟨⟨name, hname, hnamed⟩, e, hend, hcov, hst, hsit⟩ := hplace
      obtain ⟨read, hread, layout, c, hp, hc⟩ := readsOfTypes_complete hs hreads hname hnamed
        hfit.typed hes hfit.category ((covers_wanted hwanted hcat hend hsit).mpr hcov) hst
        (Layout.mem_ends.mpr ⟨hend, hsit⟩) hinside
      rcases he with ⟨rfl, -⟩ | ⟨hne, rfl⟩
      · cases hread
      · obtain ⟨-, hid, -⟩ := readsOfTypes_sound hs hnames hreads hread hindex hp hc
        refine ⟨read, hread, ⟨type, layout, e, c, hp, hc⟩, .inr ?_⟩
        rw [evaluate_bind hne]
        refine ⟨fun cond hcond => ?_, ?_, hlead⟩
        · rcases List.mem_append.mp hcond with hcond | hcond
          · exact hconds cond hcond
          · rw [List.mem_singleton.mp hcond, Condition.evaluate, ← Schema.id_of_type hfit.typed]
            exact List.contains_iff_mem.mpr hid
        · exact Relation.sitsAt_of_covers ((covers_wanted hwanted hcat hend hsit).mpr hcov) hsit

/-- The reads of a compiled query find the relations that the query selects. -/
theorem found_iff_selects (hs : s.schema.Sound) (hnames : NamesNoIndex s.schema q.types)
    (hkeys : NamesDistinctKeys s.schema q.types) (h : q.compile s category = .ok compiled)
    (hlimit : q.limit ≠ 0) {type : RelationType} (hfit : r.Fits s.schema type)
    (hindex : type.isIndex = false) {es : List (Bytes × Entry)}
    (hes : Layout.entriesFor s.schema r = .ok es) :
    q.Finds s.schema compiled v r ↔ q.Selects s.schema category v r :=
  ⟨selects_of_finds hs hnames hkeys h hfit hindex,
    finds_of_selects hs hnames h hlimit hfit hindex hes⟩

end

end Query

/-! ## Answers -/

namespace GraphView

variable {σ : Type} {view : GraphView σ} {inv : σ → Prop} {v : VertexId} {row : Row}
  {condition : Condition} {q : CompiledQuery}

/-- Without a limit an answer is what is in the slices and not removed, and satisfies the condition unless
its slice makes sure of that, and what was added and satisfies the condition.  A simple query that looks
at the store alone must be asked where there are no local changes. -/
theorem individual_sees (h : view.ReadsRow inv v row) {e : Execution}
    (hcondition : condition = e.query.bind v e.adjacent) (hq : e.query.limit = ReadLimit.most)
    (hl : ∀ read ∈ e.query.reads, read.slice.limit = none)
    (hunchanged : (e.onlyLoaded || view.isLoaded v) = true → view.addedAt v = [] ∧
      ∀ slice, ∀ r ∈ row.relations slice, view.isRemoved r.id = false) :
    (e.individual view v).Yields inv fun found => ∀ r, r ∈ found ↔
      (∃ read ∈ e.query.reads, r ∈ row.relations (read.slice.withLimit none) ∧
        view.isRemoved r.id = false ∧ (read.fitted = true ∨ condition.evaluate r v = true)) ∨
      r ∈ view.addedAt v ∧ condition.evaluate r v = true := by
  unfold Execution.individual
  split
  · rename_i hsimple
    obtain ⟨hs, hstore⟩ := Bool.and_eq_true _ _ ▸ hsimple
    obtain ⟨hadded, hremoved⟩ := hunchanged hstore
    unfold CompiledQuery.isSimple at hs
    split at hs
    · rename_i only hreads
      obtain ⟨hfitted, -⟩ := Bool.and_eq_true _ _ ▸ hs
      refine (simple_yields h hreads).mono fun found hfound r => ?_
      have hnone : only.slice.withLimit none = only.slice :=
        Row.withLimit_eq_self (hl only (by rw [hreads]; exact List.mem_cons_self))
      rw [hfound, ReadLimit.cut, if_pos hq, hreads]
      simp only [hfitted, hadded, hnone, List.mem_singleton, exists_eq_left, true_or, and_true,
        List.not_mem_nil, false_and, or_false]
      exact ⟨fun hr => ⟨hr, hremoved _ r hr⟩, And.left⟩
    · cases hs
  · rw [← hcondition]
    refine (general_unlimited h hq hl).mono fun found hfound r => ?_
    rw [hfound.1.mem_iff]
    simp only [candidates, List.mem_append, List.mem_flatMap, List.mem_filter, counting, mem_kept]

/-- Without local changes and without a limit, an answer is what is in the slices and satisfies the
condition unless its slice makes sure of that. -/
theorem individual_yields (h : view.ReadsRow inv v row) {e : Execution}
    (hcondition : condition = e.query.bind v e.adjacent) (hq : e.query.limit = ReadLimit.most)
    (hl : ∀ read ∈ e.query.reads, read.slice.limit = none) (hadded : view.addedAt v = [])
    (hremoved : ∀ slice, ∀ r ∈ row.relations slice, view.isRemoved r.id = false) :
    (e.individual view v).Yields inv fun found => ∀ r, r ∈ found ↔
      ∃ read ∈ e.query.reads, r ∈ row.relations (read.slice.withLimit none) ∧
        (read.fitted = true ∨ condition.evaluate r v = true) := by
  refine (individual_sees h hcondition hq hl fun _ => ⟨hadded, hremoved⟩).mono fun found hfound r => ?_
  rw [hfound, hadded]
  simp only [List.not_mem_nil, false_and, or_false]
  refine exists_congr fun read => and_congr_right fun _ => and_congr_right fun hr => ?_
  exact and_iff_right (hremoved _ r hr)

end GraphView

namespace GraphTx

variable {g : GraphTx StoreHandle TxHandle} {memory : Memory} {v : VertexId} {schema : Schema}
  {relations : List Relation} {q : Query} {category : Category} {compiled : CompiledQuery}

theorem implicitKey?_eq_none (h : ∀ name ∈ q.types, ∀ t, schema.named? name = some t → t.implicit = false)
    (category : Category) : q.implicitKey? schema category = none := by
  unfold Query.implicitKey?
  split
  · rfl
  · rename_i name _ htypes _
    split
    · rename_i t ht
      rw [h name (by rw [htypes]; exact List.mem_cons_self) t ht]
      rfl
    · rfl
  · rfl

/-- A query is asked by compiling it, which changes nothing in memory. -/
theorem askRelations_yields (himplicit : q.implicitKey? schema category = none)
    (hc : q.compile (g.setting schema) category = .ok compiled)
    (hrun : q.checkRunnable compiled = .ok ()) :
    (g.askRelations schema q category v).Yields (fun s : Local => s.memory = memory)
      (· = if compiled.isEmpty then .nothing else .pending (execution schema q compiled) v) := by
  unfold askRelations
  rw [himplicit]
  have hcompile : (g.compileToRun schema q category).Yields (fun s : Local => s.memory = memory)
      (· = compiled) := by
    unfold compileToRun compile
    refine Act.Yields.bind (P := (· = compiled)) ?_ fun c hcomp => ?_
    · refine (Act.yields_ofOutcome hc rfl).bind fun c hcomp => ?_
      subst hcomp
      refine (Act.yields_update fun s hs => ?_).bind fun _ _ => Act.yields_pure rfl
      exact hs
    · subst hcomp
      exact (Act.yields_ofOutcome (P := fun _ => True) hrun trivial).bind fun _ _ => Act.yields_pure rfl
  refine hcompile.bind fun c hcomp => ?_
  subst hcomp
  split
  · exact Act.yields_pure rfl
  · exact Act.yields_pure rfl

/-- Asking a vertex without local changes for all that a query selects gives the committed relations
that it selects. -/
theorem answers_filter (hs : schema.Built) (hkeys : ∀ t ∈ schema.types, t.sortKey.Nodup)
    (hnames : Query.NamesNoIndex schema q.types)
    (himplicit : ∀ name ∈ q.types, ∀ t, schema.named? name = some t → t.implicit = false)
    (hg : g.CanRead) (features : Features)
    (hstore : Committed schema relations (memory.table g.store.number))
    (hedited : g.Edited relations) (hwhole : g.isPartitioned v = false)
    (hloaded : g.isLoaded v = true) (hlimit : q.limit = ReadLimit.most)
    (hc : q.compile (g.setting schema) category = .ok compiled)
    (hrun : q.checkRunnable compiled = .ok ()) :
    (do g.pullRelations (Local.backend features)
          (← g.askRelations schema q category v)).Yields (fun s : Local => s.memory = memory)
      fun found => ∀ r, r ∈ found ↔ r ∈ relations ∧ q.Selects schema category v r := by
  have hfound : ∀ r ∈ relations,
      q.Finds schema compiled v r ↔ q.Selects schema category v r := by
    intro r hr
    obtain ⟨base, hfit, hindex⟩ := hstore.fits r hr
    obtain ⟨es, hes⟩ := hstore.writable r hr
    have hzero : q.limit ≠ 0 := by
      rw [hlimit]
      decide
    exact Query.found_iff_selects (s := g.setting schema) hs.sound hnames
      (fun _ _ _ _ layout hl _ => hkeys layout hl) hc hzero hfit hindex hes
  refine (askRelations_yields (implicitKey?_eq_none himplicit category) hc hrun).bind
    fun answer hanswer => ?_
  subst hanswer
  cases hempty : compiled.isEmpty with
  | true =>
    rw [if_pos rfl]
    refine Act.yields_pure fun r => ?_
    simp only [List.not_mem_nil, false_iff, not_and]
    intro hr hsel
    obtain ⟨read, hread, -⟩ := (hfound r hr).mpr hsel
    rw [List.isEmpty_iff.mp hempty] at hread
    cases hread
  | false =>
    rw [if_neg (by simp)]
    obtain ⟨hcl, -, hcovers⟩ := Query.compile_limits hc hempty
    have htracks := hedited.tracks
    have hreads := readsRow hg features (v := v) hstore.readable_row
    have hunlimited : ∀ read ∈ compiled.reads, read.slice.limit = none := by
      intro read hr
      refine (hcovers read hr).1.mpr ?_
      rw [Query.limit?, if_pos hlimit]
    have hremoved : ∀ slice, ∀ r ∈ (g.rowAt memory v).relations slice, g.isRemoved r.id = false := by
      intro slice r hr
      obtain ⟨hr, base, layout, e, c, hp, -⟩ := hstore.mem_relations.mp (Row.relations_subset hr)
      exact htracks.not_removed hloaded hstore.ids hr
        (Relation.isIncident_of_sitsAt hp.sitsAt)
    have hindividual := GraphView.individual_yields hreads
      (e := execution schema q compiled) rfl (hcl.trans hlimit) hunlimited
      (htracks.addedAt_eq_nil hloaded) hremoved
    have hrow : (execution schema q compiled).relations (g.view (Local.backend features)) v =
        (execution schema q compiled).individual (g.view (Local.backend features)) v := by
      have hpart : (g.view (Local.backend features)).isPartitioned v = false := hwhole
      unfold Execution.relations Execution.isFannedOut Execution.rowOf
      simp [hpart]
    show ((execution schema q compiled).relations (g.view (Local.backend features)) v).Yields _ _
    rw [hrow]
    refine hindividual.mono fun found hmem r => ?_
    rw [hmem r]
    constructor
    · rintro ⟨read, hread, hr, hchecked⟩
      obtain ⟨hr, hplaced⟩ := hstore.mem_relations.mp hr
      exact ⟨hr, (hfound r hr).mp ⟨read, hread, hplaced, hchecked⟩⟩
    · rintro ⟨hr, hsel⟩
      obtain ⟨read, hread, hplaced, hchecked⟩ := (hfound r hr).mpr hsel
      exact ⟨read, hread, hstore.mem_relations.mpr ⟨hr, hplaced⟩, hchecked⟩

theorem answers_filter_rated :
    ∃ found s', (show Act Local (List Relation) from do
        Rated.reader.pullRelations (Local.backend Memory.defaultFeatures)
          (← Rated.reader.askRelations Rated.schema (Rated.reader.query Rated.schema Rated.nines)
            .edge ⟨1⟩)).exec Rated.opened.2 = (.ok found, s') ∧
      ∀ r, r ∈ found ↔ r ∈ [Rated.rating 9 9, Rated.rating 7 1] ∧
        (Rated.reader.query Rated.schema Rated.nines).Selects Rated.schema .edge ⟨1⟩ r := by
  have hc : (Rated.reader.query Rated.schema Rated.nines).compile
      (Rated.reader.setting Rated.schema) .edge = .ok _ :=
    Outcome.eq_ok_getD (by decide +kernel) .empty
  have hall : ∀ t ∈ Rated.schema.types, t.sortKey.Nodup ∧ t.isIndex = false := by decide +kernel
  have himplicit : ∀ name ∈ (Rated.reader.query Rated.schema Rated.nines).types, ∀ t,
      Rated.schema.named? name = some t → t.implicit = false := by
    intro name hname t ht
    obtain rfl := List.mem_singleton.mp hname
    exact (by decide +kernel : ∀ t, t ∈ Rated.schema.named? "rated" → t.implicit = false) t ht
  obtain ⟨found, s', hrun, -, hmem⟩ := answers_filter Rated.schema_built (fun t ht => (hall t ht).1)
    (fun _ _ t ht => (hall t (Schema.mem_of_named ht)).2) himplicit Rated.canRead
    Memory.defaultFeatures Rated.committed (.unchanged (by decide +kernel) (by decide +kernel))
    (v := ⟨1⟩) (by decide +kernel) (by decide +kernel) (by decide +kernel) hc
    (by exact (Outcome.eq_ok_getD (by decide +kernel) ())) Rated.opened.2 rfl
  exact ⟨found, s', hrun, hmem⟩

end GraphTx

/-! ## Where filtering would answer otherwise -/

namespace Likes

/-- Likes, kept where they go out only, with an index, and friendships, kept at both ends. -/
def schema : Schema :=
  (Schema.ofSteps [
    .define { TypeDefinition.edgeLabel "likes" with directionality := .out },
    .index ⟨"likes", "liked", [], .out, .asc, .enabled⟩,
    .define (.edgeLabel "friend")]).toOption.getD .initial

/-- What vertex 1 is answered after some relations were committed and others removed locally. -/
def answer (committed removed : List Relation) (calls : List QueryCall) (category : Category) :
    Option (List Relation) :=
  let act : Act Local (List Relation) := do
    let g ← GraphTx.openAfter schema committed
    let g := removed.foldl GraphTx.remove g
    let answer ← g.askRelations schema (g.query schema calls) category ⟨1⟩
    g.pullRelations (Local.backend Memory.defaultFeatures) answer
  (act.exec .new).1.toOption

end Likes

/-- A query without type names finds a loop at the end that is not kept, and misses relations whose
type is an index; a relation is missed if one with its id is removed elsewhere; and properties that
come in are no edges, whatever type is named. -/
theorem answers_not_filter :
    (∀ t ∈ Likes.schema.type? ⟨1024⟩, t.storesDirection .into = false) ∧
      Likes.answer [.edge ⟨7⟩ ⟨1024⟩ ⟨1⟩ ⟨1⟩] [] [.direction .into] .relation
        = some [.edge ⟨7⟩ ⟨1024⟩ ⟨1⟩ ⟨1⟩] ∧
      Likes.answer [.edge ⟨7⟩ ⟨1025⟩ ⟨1⟩ ⟨2⟩] [] [.direction .out] .relation = some [] ∧
      Likes.answer [.edge ⟨7⟩ ⟨1024⟩ ⟨1⟩ ⟨2⟩] [.edge ⟨7⟩ ⟨1024⟩ ⟨3⟩ ⟨4⟩] [.direction .out] .relation
        = some [] ∧
      Likes.answer [.edge ⟨7⟩ ⟨1026⟩ ⟨2⟩ ⟨1⟩] [] [.types ["friend"], .direction .into] .property
        = some [] := by
  decide +kernel

end RowGraph
