import RowGraph.Proofs.CommitRuns
import RowGraph.Proofs.CommittedAnswers

/-!
# Reading own writes

Before a commit a query looks for the added relations of a vertex and evaluates its condition on them.
After the commit the same relations are found, if at all, in the slices of the compiled query.  For a
relation that fits its type both come to the same (`Query.finds_iff_evaluates`), if the type keeps the end
where the query looks for it.  So a query that is asked just before a commit and one that is asked in a
fresh transaction just after it have the same answer (`GraphTx.answers_kept_by_commit`).

Where a condition of this is not met the answers differ (`answers_changed_by_commit`).
-/

namespace RowGraph

/-! ## Evaluating and finding -/

namespace Query

/-- If the type of the relation is asked for, and the vertex sits at an end that is asked for, then it sits
at an end that the type keeps, and with type names at one that is asked for as well. -/
def KeptFor (schema : Schema) (q : Query) (v : VertexId) (r : Relation) : Prop :=
  ∀ base, schema.type? r.typeId = some base → r.sitsAt v q.direction = true →
    if q.types = [] then
      ∃ e ∈ Direction.ends, base.storesDirection e = true ∧ r.sitsAt v e = true
    else
      (∃ name ∈ q.types, schema.named? name = some base) →
        ∃ e ∈ Direction.ends, q.direction.covers e = true ∧ base.storesDirection e = true ∧
          r.sitsAt v e = true

variable {s : Setting} {q : Query} {category : Category} {compiled : CompiledQuery} {r : Relation}
  {v : VertexId} {type : RelationType}

/-- What satisfies the condition of a compiled query is selected, where it is kept. -/
theorem selects_of_evaluates (hs : s.schema.Sound) (h : q.compile s category = .ok compiled)
    (hne : compiled.isEmpty = false) (hfit : r.Fits s.schema type) (hkept : q.KeptFor s.schema v r)
    (hcond : (compiled.bind v q.adjacent).evaluate r v = true) : q.Selects s.schema category v r := by
  rcases compile_eq_ok h with ⟨rfl, -⟩ | ⟨d, conditions, hwanted, hnormal, hplan⟩
  · cases hne
  have hconstraints (hconds : ∀ c ∈ conditions, c.evaluate r v = true) :
      ∀ c ∈ q.constraints, c.holds s.schema v r = true :=
    (Constraint.normalize_some hnormal).mp hconds
  rcases plan_eq_ok hplan with ⟨htypes, only, -, rfl⟩ | ⟨-, -, rfl⟩ | ⟨htypes, types, reads, hreads, he⟩
  · obtain ⟨hconds, hsit, hlead⟩ := (evaluate_bind (by simp)).mp hcond
    have hcat : Condition.inCategory category r = true := hconds (.category category) (by simp)
    have hsys : r.typeId.isSystem = q.system := by
      have hvisible := hconds (.visibility q.system) (by simp)
      rw [Condition.evaluate] at hvisible
      exact beq_iff_eq.mp hvisible
    have hend := sitsAt_wanted hwanted hcat (v := v) ▸ hsit
    refine ⟨type, hfit.typed, hcat, hconstraints fun c hc => hconds c (List.mem_append_left _ hc), hlead, ?_⟩
    have hplace := hkept type hfit.typed hend
    rw [if_pos htypes] at hplace ⊢
    refine ⟨?_, hend, hplace⟩
    rw [RelationType.isSystem, Schema.id_of_type hfit.typed]
    exact hsys
  · cases hne
  · rcases he with ⟨-, rfl⟩ | ⟨hreads', rfl⟩
    · cases hne
    obtain ⟨hconds, hsit, hlead⟩ := (evaluate_bind hreads').mp hcond
    have hid : r.typeId ∈ types := by
      have htyped := hconds (.relationType types) (by simp)
      rw [Condition.evaluate] at htyped
      exact List.contains_iff_mem.mp htyped
    obtain ⟨name, hname, t, hnamed, ht⟩ := named_of_readsOfTypes hreads hid
    obtain rfl : t = type := by
      have htype := hs.type?_eq (Schema.mem_of_named hnamed)
      rw [ht, hfit.typed] at htype
      exact (Option.some.inj htype).symm
    have hcat : Condition.inCategory category r = true := by
      rw [inCategory_iff hfit.category]
      exact category_of_named hreads hname hnamed
    have hend := sitsAt_wanted hwanted hcat (v := v) ▸ hsit
    refine ⟨t, hfit.typed, hcat, hconstraints fun c hc => hconds c (List.mem_append_left _ hc), hlead, ?_⟩
    have hplace := hkept t hfit.typed hend
    rw [if_neg htypes] at hplace ⊢
    exact ⟨⟨name, hname, hnamed⟩, hplace ⟨name, hname, hnamed⟩⟩

/-- The reads of a compiled query find the relations at the vertex that satisfy its condition, where they
are kept. -/
theorem finds_iff_evaluates (hs : s.schema.Sound) (hnames : NamesNoIndex s.schema q.types)
    (hkeys : NamesDistinctKeys s.schema q.types) (h : q.compile s category = .ok compiled)
    (hlimit : q.limit ≠ 0) (hne : compiled.isEmpty = false) (hfit : r.Fits s.schema type)
    (hindex : type.isIndex = false) (hkept : q.KeptFor s.schema v r) :
    q.Finds s.schema compiled v r ↔
      r.isIncident v = true ∧ (compiled.bind v q.adjacent).evaluate r v = true := by
  constructor
  · rintro ⟨read, hread, ⟨base, layout, e, c, hp, hc⟩, hchecked⟩
    obtain rfl := Option.some.inj (hfit.typed.symm.trans hp.typed)
    refine ⟨Relation.isIncident_of_sitsAt hp.sitsAt, ?_⟩
    rcases hchecked with hfitted | hcond
    · exact fitted_satisfies hs hnames hkeys h hread hfitted hfit hindex hp hc
    · exact hcond
  · rintro ⟨-, hcond⟩
    obtain ⟨es, hes⟩ := Layout.exists_entriesFor hs hfit.typed hfit.category
    exact finds_of_selects hs hnames h hlimit hfit hindex hes
      (selects_of_evaluates hs h hne hfit hkept hcond)

end Query

/-! ## Answers with local changes -/

/-- A vertex that is not partitioned is asked in its own row. -/
theorem Execution.relations_of_whole {σ : Type} {view : GraphView σ} {v : VertexId}
    (h : view.isPartitioned v = false) (e : Execution) : e.relations view v = e.individual view v := by
  unfold relations isFannedOut rowOf
  simp [h]

namespace GraphTx

variable {g : GraphTx StoreHandle TxHandle} {memory : Memory} {v : VertexId} {schema : Schema}
  {relations : List Relation} {q : Query} {category : Category} {compiled : CompiledQuery}

/-- Asks a vertex for relations and pulls all of them. -/
def answer (features : Features) (schema : Schema) (q : Query) (category : Category) (v : VertexId)
    (g : GraphTx StoreHandle TxHandle) : Act Local (List Relation) := do
  g.pullRelations (Local.backend features) (← g.askRelations schema q category v)

/-- Asking an unpartitioned vertex runs the compiled query on its row. -/
theorem answer_yields (himplicit : q.implicitKey? schema category = none)
    (hc : q.compile (g.setting schema) category = .ok compiled) (honly : q.onlyLoaded = false)
    (hwhole : g.isPartitioned v = false) (features : Features) {P : List Relation → Prop}
    (hnothing : compiled.isEmpty = true → P [])
    (hrun : compiled.isEmpty = false →
      ((execution schema q compiled).individual (g.view (Local.backend features)) v).Yields
        (fun s => s.memory = memory) P) :
    (g.answer features schema q category v).Yields (fun s => s.memory = memory) P := by
  have hrunnable : q.checkRunnable compiled = .ok () := by
    rw [Query.checkRunnable, honly]
    rfl
  refine (askRelations_yields himplicit hc hrunnable).bind fun answer hanswer => ?_
  subst hanswer
  cases hempty : compiled.isEmpty with
  | true =>
    rw [if_pos rfl]
    exact Act.yields_pure (hnothing hempty)
  | false =>
    rw [if_neg (by simp)]
    change ((execution schema q compiled).relations (g.view (Local.backend features)) v).Yields _ _
    rw [Execution.relations_of_whole hwhole]
    exact hrun hempty

/-- An unlimited answer holds the stored relations that are found and not removed, and the added ones that
satisfy the condition. -/
theorem answer_visible (hg : g.CanRead) (features : Features)
    (hstore : Committed schema relations (memory.table g.store.number))
    (hedited : g.Edited relations) (hwhole : g.isPartitioned v = false)
    (hlimit : q.limit = ReadLimit.most) (honly : q.onlyLoaded = false)
    (himplicit : q.implicitKey? schema category = none)
    (hc : q.compile (g.setting schema) category = .ok compiled) :
    (g.answer features schema q category v).Yields (fun s => s.memory = memory) fun found =>
      ∀ r, r ∈ found ↔ compiled.isEmpty = false ∧
        (r ∈ relations ∧ g.isRemoved r.id = false ∧ q.Finds schema compiled v r ∨
          r ∈ g.added ∧ r.isIncident v = true ∧ (compiled.bind v q.adjacent).evaluate r v = true) := by
  refine answer_yields himplicit hc honly hwhole features (fun hempty r => by simp [hempty]) fun hempty => ?_
  obtain ⟨hcl, -, hcovers⟩ := Query.compile_limits hc hempty
  have htracks := hedited.tracks
  have hreads := readsRow hg features (v := v) hstore.readable_row
  have hunlimited : ∀ read ∈ compiled.reads, read.slice.limit = none := by
    intro read hr
    refine (hcovers read hr).1.mpr ?_
    rw [Query.limit?, if_pos hlimit]
  refine (GraphView.individual_sees hreads (e := execution schema q compiled) rfl (hcl.trans hlimit)
    hunlimited fun hstored => ?_).mono fun found hmem r => ?_
  · have hloaded : g.isLoaded v = true := by
      change (q.onlyLoaded || g.isLoaded v) = true at hstored
      rwa [honly, Bool.false_or] at hstored
    refine ⟨htracks.addedAt_eq_nil hloaded, fun slice r hr => ?_⟩
    obtain ⟨hr, base, layout, e, c, hp, -⟩ := hstore.mem_relations.mp (Row.relations_subset hr)
    exact htracks.not_removed hloaded hstore.ids hr (Relation.isIncident_of_sitsAt hp.sitsAt)
  · rw [hmem r, and_iff_right hempty]
    refine or_congr ?_ ?_
    · constructor
      · rintro ⟨read, hread, hr, hkept, hchecked⟩
        obtain ⟨hr, hplaced⟩ := hstore.mem_relations.mp hr
        exact ⟨hr, hkept, read, hread, hplaced, hchecked⟩
      · rintro ⟨hr, hkept, read, hread, hplaced, hchecked⟩
        exact ⟨read, hread, hstore.mem_relations.mpr ⟨hr, hplaced⟩, hkept, hchecked⟩
    · rw [show r ∈ (g.view (Local.backend features)).addedAt v ↔ r ∈ g.added ∧ r.isIncident v = true from
        List.mem_filter, and_assoc]
      rfl

/-- A query that does not compile has no answer. -/
theorem answer_error {f : Failure} (himplicit : q.implicitKey? schema category = none)
    (hc : q.compile (g.setting schema) category = .error f) (features : Features) (s : Local) :
    ((g.answer features schema q category v).exec s).1 = .error f := by
  have hcompile : (g.compileToRun schema q category : Act Local CompiledQuery).exec s = (.error f, s) := by
    unfold compileToRun compile
    rw [bind_assoc]
    exact Act.exec_bind_error (by rw [Act.exec_ofOutcome, hc]) _
  unfold answer askRelations
  rw [himplicit, bind_assoc, Act.exec_bind_error hcompile]

/-- A query for an implicit key is answered without reading. -/
theorem answer_implicit {key : ImplicitKey} (himplicit : q.implicitKey? schema category = some key)
    (features : Features) (s : Local) :
    ((g.answer features schema q category v).exec s).1 = .ok (q.implicitAnswer (g.label? v) v key) := by
  unfold answer askRelations
  rw [himplicit]
  rfl

end GraphTx

/-! ## Before and after a commit -/

/-- What transactions add: relations that fit their types, which are no indexes, and that read back. -/
def Relation.Storable (schema : Schema) (r : Relation) : Prop :=
  (∃ base, r.Fits schema base ∧ base.isIndex = false) ∧ Relation.ofStoredBytes r.storedBytes = .ok r

/-- Two answers fail in the same way, or are the same relations in some order. -/
def SameAnswer : Outcome (List Relation) → Outcome (List Relation) → Prop
  | .ok found, .ok found' => ∀ r, r ∈ found ↔ r ∈ found'
  | .error f, .error f' => f = f'
  | _, _ => False

namespace GraphTx

variable {schema : Schema} {name : String} {s : Local} {R : List Relation}
  {g : GraphTx StoreHandle TxHandle}

theorem InOrder.stored (h : InOrder schema name (Relation.Storable schema) s R g) :
    Committed schema R (s.memory.table g.store.number) := by
  have hcontents : s.memory.contents name = s.memory.table g.store.number := by
    rw [← h.storeName]
    exact Memory.contents_of_open h.live.store
  have hholds := hcontents ▸ h.holds
  exact {
    entries := hholds.entries
    writable := hholds.writable
    fits := fun r hr => (h.within r hr).1
    faithful := fun r hr r' hr' => Except.ok.inj (hr'.symm.trans (h.within r hr).2)
    readable := fun r hr => (h.within r hr).2
    ids := h.ids }

/-- What is added and removed can be written, so that an open transaction can commit. -/
theorem InOrder.commit_ok (h : InOrder schema name (Relation.Storable schema) s R g) (hs : schema.Sound)
    (hopen : g.tx.isSome) (hvalid : g.settings.validate = .ok ()) (features : Features) :
    ∃ s', (commit (Local.backend features) schema).exec (g, s) = (.ok (), (g.ended, s')) := by
  obtain ⟨tx, htx⟩ := Option.isSome_iff_exists.mp hopen
  have hbatch : ∃ batch, g.batch schema = .ok batch := by
    refine ⟨_, batch_eq_ok.mpr ⟨fun r hr => ?_, fun r hr => ?_, rfl⟩⟩
    · obtain ⟨id, hr⟩ := SortedMap.mem_values_iff.mp hr
      exact h.holds.writable r (h.changed.removed hr).1
    · obtain ⟨base, hfit, -⟩ := (h.changed.added hr).1
      exact Layout.exists_entriesFor hs hfit.typed hfit.category
  obtain ⟨batch, hbatch⟩ := hbatch
  exact ⟨_, GraphTx.commit_ok h.live.sound (openTx_eq_ok.mpr htx) (h.live.running tx htx) hbatch
    fun _ => (Settings.patient_of_validate hvalid).2⟩

/-- The transaction knows the partitions and labels that another one does. -/
def configuredAs (g' g : GraphTx StoreHandle TxHandle) : GraphTx StoreHandle TxHandle :=
  { g' with partitions := g.partitions, localPartitions := g.localPartitions, labels := g.labels }

variable {q : Query} {v : VertexId} {s' : Local} {g' : GraphTx StoreHandle TxHandle} {category : Category}

/-- A transaction with changes answers like one without changes where all that it sees is stored. -/
theorem sameAnswer_of_visible (hs : schema.Sound) (features : Features) (hg : g.CanRead)
    (hstored : Committed schema R (s.memory.table g.store.number))
    (hchanged : g.Changed (Relation.Storable schema) R) (hg' : g'.CanRead)
    (hstored' : Committed schema (g.visible R) (s'.memory.table g'.store.number))
    (hadded' : g'.added = []) (hremoved' : g'.removed = .empty) (hlabels : g'.labels = g.labels)
    (hwhole : g.isPartitioned v = false) (hwhole' : g'.isPartitioned v = false)
    (hlimit : q.limit = ReadLimit.most) (honly : q.onlyLoaded = false)
    (hnames : Query.NamesNoIndex schema q.types) (hkeys : Query.NamesDistinctKeys schema q.types)
    (hkept : ∀ r ∈ g.added, q.KeptFor schema v r) :
    SameAnswer ((g.answer features schema q category v).exec s).1
      ((g'.answer features schema q category v).exec s').1 := by
  cases himplicit : q.implicitKey? schema category with
  | some key =>
    rw [answer_implicit himplicit, answer_implicit himplicit, label?, label?, hlabels]
    exact fun _ => Iff.rfl
  | none =>
    have hschema : (g'.setting schema).schema = (g.setting schema).schema := rfl
    have hcompile := Query.compile_unlimited hschema hlimit category
    cases hc : q.compile (g.setting schema) category with
    | error f =>
      rw [answer_error himplicit hc, answer_error himplicit (hcompile.trans hc)]
      exact rfl
    | ok compiled =>
      obtain ⟨found, _, hrun, -, hmem⟩ := answer_visible hg features hstored hchanged.edited hwhole hlimit
        honly himplicit hc s rfl
      obtain ⟨found', _, hrun', -, hmem'⟩ := answer_visible hg' features hstored'
        (.unchanged hadded' hremoved') hwhole' hlimit honly himplicit (hcompile.trans hc) s' rfl
      rw [hrun, hrun']
      intro r
      have hkeeps : g'.isRemoved r.id = false := by
        rw [isRemoved, hremoved']
        rfl
      rw [hmem r, hmem' r, hadded', mem_visible]
      refine and_congr_right fun hne => ?_
      simp only [hkeeps, List.not_mem_nil, false_and, or_false, true_and, or_and_right, and_assoc]
      refine or_congr Iff.rfl (and_congr_right fun hr => ?_)
      obtain ⟨base, hfit, hindex⟩ := (hchanged.added hr).1
      have hzero : q.limit ≠ 0 := by
        rw [hlimit]
        decide
      exact (Query.finds_iff_evaluates (s := g.setting schema) hs hnames hkeys hc hzero hne hfit hindex
        (hkept r hr)).symm

/-- An open transaction that has added and removed relations can commit, and the answer that a query has
just before is the one that it has just after in a fresh transaction. -/
theorem answers_kept_by_commit (hs : schema.Built) (features : Features)
    (h : InOrder schema name (Relation.Storable schema) s R g) (hopen : g.tx.isSome)
    (hvalid : g.settings.validate = .ok ()) (hunshared : Unshared schema (g.visible R))
    (hlimit : q.limit = ReadLimit.most) (honly : q.onlyLoaded = false)
    (hnames : Query.NamesNoIndex schema q.types) (hkeys : Query.NamesDistinctKeys schema q.types)
    (hwhole : g.isPartitioned v = false) (hkept : ∀ r ∈ g.added, q.KeptFor schema v r)
    (category : Category) {settings : Settings} (hfresh : settings.validate = .ok ()) :
    ∃ s' g' s'', (commit (Local.backend features) schema).exec (g, s) = (.ok (), (g.ended, s')) ∧
      (start (Local.backend features) name settings).exec s' = (.ok g', s'') ∧
      SameAnswer ((g.answer features schema q category v).exec s).1
        (((g'.configuredAs g).answer features schema q category v).exec s'').1 := by
  obtain ⟨s', hcommit⟩ := h.commit_ok hs.sound hopen hvalid features
  have hstart := start_ok features hfresh name s'
  refine ⟨s', _, _, hcommit, hstart, ?_⟩
  have hafter := (h.committed hunshared hcommit).next hstart
  exact sameAnswer_of_visible hs.sound features ⟨hopen, (Settings.patient_of_validate hvalid).1⟩ h.stored
    h.changed ⟨rfl, (Settings.patient_of_validate hfresh).1⟩ hafter.stored rfl rfl rfl hwhole hwhole hlimit
    honly hnames hkeys hkept

end GraphTx

/-! ## One rating -/

namespace Rated

/-- The first transaction of all adds a rating. -/
def adding : GraphTx StoreHandle TxHandle := (GraphTx.fresh .new "edgestore" .steady).add (rating 9 9)

theorem storable_rating : (rating 9 9).Storable schema := by
  have htyped : schema.type? (rating 9 9).typeId = some _ := Option.eq_some_of_isSome (by decide +kernel)
  refine ⟨⟨_, Relation.fits_of_check htyped ?_ ?_ ?_, ?_⟩, Outcome.eq_ok_of_toOption ?_⟩ <;>
    decide +kernel

theorem inOrder_adding :
    GraphTx.InOrder schema "edgestore" (Relation.Storable schema) (GraphTx.started "edgestore") []
      adding := by
  have hstart := GraphTx.reached_started Memory.defaultFeatures schema "edgestore" (Relation.Storable schema)
    Settings.validate_steady
  exact (hstart.add storable_rating (by simp [GraphTx.visible, GraphTx.fresh])).inOrder

end Rated

theorem GraphTx.answers_kept_by_commit_rated :
    ∃ s' g' s'', (GraphTx.commit (Local.backend Memory.defaultFeatures) Rated.schema).exec
        (Rated.adding, GraphTx.started "edgestore") = (.ok (), (Rated.adding.ended, s')) ∧
      (GraphTx.start (Local.backend Memory.defaultFeatures) "edgestore" .steady).exec s' = (.ok g', s'') ∧
      SameAnswer (.ok [Rated.rating 9 9])
        (((g'.configuredAs Rated.adding).answer Memory.defaultFeatures Rated.schema
          (Rated.adding.query Rated.schema Rated.nines) .edge ⟨1⟩).exec s'').1 := by
  have hunshared : Unshared Rated.schema (Rated.adding.visible []) :=
    unshared_singleton Rated.schema (Rated.rating 9 9)
  have hnames : Query.NamesNoIndex Rated.schema (Rated.adding.query Rated.schema Rated.nines).types :=
    fun _ _ t ht => (by decide +kernel : ∀ t ∈ Rated.schema.types, t.isIndex = false) t
      (Schema.mem_of_named ht)
  have hkeys : Query.NamesDistinctKeys Rated.schema
      (Rated.adding.query Rated.schema Rated.nines).types :=
    fun _ _ _ _ layout hl _ =>
      (by decide +kernel : ∀ layout ∈ Rated.schema.types, layout.sortKey.Nodup) layout hl
  have hkept : ∀ r ∈ Rated.adding.added,
      (Rated.adding.query Rated.schema Rated.nines).KeptFor Rated.schema ⟨1⟩ r := by
    intro r hr base hbase _
    obtain rfl : r = Rated.rating 9 9 := List.mem_singleton.mp hr
    rw [if_neg (by decide +kernel)]
    intro _
    refine ⟨.out, by decide, by decide +kernel, ?_, by decide +kernel⟩
    exact (by decide +kernel : ∀ t, t ∈ Rated.schema.type? (Rated.rating 9 9).typeId →
      t.storesDirection .out = true) base hbase
  obtain ⟨s', g', s'', hcommit, hstart, hsame⟩ := GraphTx.answers_kept_by_commit Rated.schema_built
    Memory.defaultFeatures Rated.inOrder_adding (by decide +kernel) Settings.validate_steady hunshared (v := ⟨1⟩)
    (q := Rated.adding.query Rated.schema Rated.nines) (by decide +kernel) (by decide +kernel) hnames hkeys
    (by decide +kernel) hkept .edge Settings.validate_steady
  have hbefore : ((Rated.adding.answer Memory.defaultFeatures Rated.schema
      (Rated.adding.query Rated.schema Rated.nines) .edge ⟨1⟩).exec (GraphTx.started "edgestore")).1 =
        .ok [Rated.rating 9 9] :=
    Outcome.eq_ok_of_toOption (by decide +kernel)
  exact ⟨s', g', s'', hcommit, hstart, hbefore ▸ hsame⟩

/-! ## Where a commit changes answers -/

/-- What vertex 1 is answered by the transaction that adds some relations to an empty store, and by a fresh
one after the commit. -/
def aroundCommit (schema : Schema) (added : List Relation) (calls : List QueryCall) (category : Category) :
    Option (List Relation) × Option (List Relation) :=
  let ask (g : GraphTx StoreHandle TxHandle) : Act Local (List Relation) :=
    g.answer Memory.defaultFeatures schema (g.query schema calls) category ⟨1⟩
  let before : Act Local (List Relation) := do
    let g ← GraphTx.start (Local.backend Memory.defaultFeatures) "edgestore" .steady
    ask (added.foldl GraphTx.add g)
  let after : Act Local (List Relation) := do
    let g ← GraphTx.openAfter schema added
    ask g
  ((before.exec .new).1.toOption, (after.exec .new).1.toOption)

namespace Tags

/-- Tags, of which a vertex may have several while no two vertices have the same. -/
def schema : Schema :=
  (Schema.ofSteps [
    .define { TypeDefinition.propertyKey "tag" .int with multiplicity := .oneToMany }]).toOption.getD .initial

end Tags

/-- A query that is to look at the store alone finds an edge only after the commit.  An edge at an end that
its type does not keep, and one whose type is an index, are found before the commit only.  Where a sort key
repeats a key, a relation that fails a condition is found after the commit.  And of two tags of a vertex,
which share a column, one is left. -/
theorem answers_changed_by_commit :
    aroundCommit Likes.schema [.edge ⟨7⟩ ⟨1026⟩ ⟨1⟩ ⟨2⟩]
        [.types ["friend"], .direction .out, .onlyLoaded] .edge =
      (some [], some [.edge ⟨7⟩ ⟨1026⟩ ⟨1⟩ ⟨2⟩]) ∧
    aroundCommit Likes.schema [.edge ⟨7⟩ ⟨1024⟩ ⟨2⟩ ⟨1⟩] [.direction .into] .relation =
      (some [.edge ⟨7⟩ ⟨1024⟩ ⟨2⟩ ⟨1⟩], some []) ∧
    aroundCommit Likes.schema [.edge ⟨7⟩ ⟨1025⟩ ⟨1⟩ ⟨2⟩] [.direction .out] .relation =
      (some [.edge ⟨7⟩ ⟨1025⟩ ⟨1⟩ ⟨2⟩], some []) ∧
    aroundCommit Misfit.schema [Misfit.rating] [.types ["rated"], .direction .out,
        .hasCompared "a" .eq (.int 1), .hasCompared "b" .eq (.int 2)] .edge =
      (some [], some [Misfit.rating]) ∧
    aroundCommit Tags.schema [.property ⟨7⟩ ⟨1024⟩ ⟨1⟩ (.int 1), .property ⟨8⟩ ⟨1024⟩ ⟨1⟩ (.int 2)]
        [.types ["tag"]] .property =
      (some [.property ⟨7⟩ ⟨1024⟩ ⟨1⟩ (.int 1), .property ⟨8⟩ ⟨1024⟩ ⟨1⟩ (.int 2)],
        some [.property ⟨8⟩ ⟨1024⟩ ⟨1⟩ (.int 2)]) := by
  decide +kernel

end RowGraph
