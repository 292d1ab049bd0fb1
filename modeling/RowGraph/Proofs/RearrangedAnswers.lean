import RowGraph.Proofs.NameOrder
import RowGraph.Proofs.OwnWrites
import RowGraph.Proofs.PartitionedAnswers

/-!
# Answers to rearranged queries

A slice that cannot be read now can never be read, and one that can be read always holds the same relations
(`readSlice_steady`).  So the slices of a query may be read in any order: without limits, compiled queries
that differ in the order of their reads are answered with the same relations by a row (`individual_agree`),
and by the representatives of a partitioned vertex together (`gathered_agree`).

If of the relations with one id only the first is kept, then it depends on the order which one that is, but
not which ids there are (`alike_dedup`).
-/

namespace RowGraph

/-! ## Rearranged queries -/

namespace CompiledQuery

/-- A condition bound to a vertex says what it says unbound, and in which place the vertex is. -/
theorem evaluate_bind (q : CompiledQuery) (v : VertexId) (adjacent : Option Adjacent) (r : Relation)
    (w : VertexId) :
    (q.bind v adjacent).evaluate r w = (q.condition.evaluate r w && (q.isEmpty ||
      (Condition.direction v q.direction).evaluate r w &&
        adjacent.all fun a => (Condition.incidence v a.vertex).evaluate r w)) := by
  unfold bind
  cases q.isEmpty with
  | true => simp
  | false =>
    rw [if_neg Bool.false_ne_true, Bool.false_or, Condition.evaluate, Bool.eq_iff_iff, Bool.and_eq_true,
      Condition.holdsAll_iff]
    cases adjacent <;> cases q.condition <;>
      simp [Condition.evaluate, Condition.holdsAll_iff, or_imp, forall_and, and_assoc]

namespace Rearranged

variable {a b : CompiledQuery}

theorem isEmpty_eq (h : a.Rearranged b) : a.isEmpty = b.isEmpty := h.reads.isEmpty_eq

theorem isSimple_eq (h : a.Rearranged b) : a.isSimple = b.isSimple := by
  rw [Bool.eq_iff_iff, isSimple_iff, isSimple_iff]
  constructor
  · rintro ⟨only, hreads, hfit⟩
    exact ⟨only, (List.singleton_perm.mp (hreads ▸ h.reads)).symm, hfit⟩
  · rintro ⟨only, hreads, hfit⟩
    exact ⟨only, List.perm_singleton.mp (hreads ▸ h.reads), hfit⟩

theorem evaluate_bind (h : a.Rearranged b) (v : VertexId) (adjacent : Option Adjacent) (r : Relation)
    (w : VertexId) : (a.bind v adjacent).evaluate r w = (b.bind v adjacent).evaluate r w := by
  rw [CompiledQuery.evaluate_bind, CompiledQuery.evaluate_bind, h.condition, h.isEmpty_eq, h.direction]

end Rearranged

end CompiledQuery

/-! ## Reading is steady -/

/-- From memory as it is, a slice can always be read, or never. -/
theorem GraphTx.readSlice_steady (g : GraphTx StoreHandle TxHandle) (features : Features) (memory : Memory)
    (v : VertexId) (slice : Slice) :
    (g.readSlice (Local.backend features) v slice).Steady fun s => s.memory = memory := by
  unfold readSlice
  refine (Act.steady_ofOutcome _).bind fun tx => ?_
  have hdraw : (Act.asks (Local.backend features).draw).Steady fun s => s.memory = memory :=
    .inr ⟨_, fun s hs => ⟨_, s, rfl, hs, rfl⟩⟩
  refine hdraw.bind fun draw => ?_
  refine Act.Steady.bind ?_ fun entries => ?_
  · have hread (s : Local) : ((Local.backend features).read g.store (Layout.rowKey v) slice tx).exec s
        = (.ok ((g.rowAt s.memory v).read slice), s) := rfl
    by_cases hb : (g.operation "get_slice" g.settings.retry.readWaitMillis draw : Operation Local).budget = 0
    · refine .inl fun s hs => ?_
      rw [Operation.run_without_budget hb]
      exact ⟨hs, fun _ h => by cases h⟩
    · refine .inr ⟨(g.rowAt memory v).read slice, fun s hs => ⟨_, s, Operation.run_ok hb (hread s), hs, ?_⟩⟩
      rw [hs]
  · refine Act.Steady.bind (.inr ⟨(), (Act.yields_update fun s hs => ?_).mono fun _ _ => rfl⟩)
      fun _ => Act.steady_ofOutcome _
    exact hs

namespace GraphView

variable {σ : Type} {view : GraphView σ} {inv : σ → Prop} {v : VertexId} {a b : CompiledQuery}
  {condition condition' : Condition}

/-- Every slice can always be read, or never. -/
def ReadsSteadily (view : GraphView σ) (inv : σ → Prop) : Prop := ∀ v slice, (view.read v slice).Steady inv

theorem readAll_steady (h : view.ReadsSteadily inv) {read : PlannedRead} (hl : read.slice.limit = none) :
    (view.readAll v a condition read).Steady inv := by
  unfold readAll
  rw [hl]
  exact (h v read.slice).bind fun _ => Act.steady_pure _

/-- Without a limit it matters only which relations satisfy the condition. -/
theorem readAll_congr (hcond : ∀ r, condition.evaluate r v = condition'.evaluate r v) {read : PlannedRead}
    (hl : read.slice.limit = none) :
    view.readAll v a condition read = view.readAll v b condition' read := by
  unfold readAll kept
  rw [hl]
  simp only [hcond]

/-- Rearranged queries without limits have the same answer in general. -/
theorem general_agree (h : view.ReadsSteadily inv) (hab : a.Rearranged b)
    (hcond : ∀ r, condition.evaluate r v = condition'.evaluate r v) (hm : a.limit = ReadLimit.most)
    (hl : ∀ read ∈ a.reads, read.slice.limit = none) :
    (view.general v a condition).Agree inv (view.general v b condition') List.Perm := by
  have hsame : (b.reads.mapM (view.readAll v a condition)).Agree inv
      (b.reads.mapM (view.readAll v b condition')) List.Perm := by
    refine (Act.agree_mapM (R := (· = ·)) fun read hr => ?_).mono fun parts parts' hparts => ?_
    · have hnone := hl read (hab.reads.mem_iff.mpr hr)
      rw [← readAll_congr hcond hnone]
      exact (readAll_steady h hnone).agree
    · rw [List.forall₂_eq_eq_eq] at hparts
      exact hparts ▸ List.Perm.refl _
  have hreads := (Act.agree_mapM_perm hab.reads fun read hr => readAll_steady h (hl read hr)).trans hsame
  unfold general
  refine hreads.bind fun parts parts' hparts => Act.agree_pure ?_
  simp only [hcond, ReadLimit.cut, hm, ← hab.limit, if_true]
  exact ((perm_arranged _).trans (hparts.flatten.append_right _)).trans (perm_arranged _).symm

/-- Rearranged queries that are simple have the same answer. -/
theorem simple_agree (h : view.ReadsSteadily inv) (hab : a.Rearranged b) (hsimple : a.isSimple = true) :
    (view.simple v a).Agree inv (view.simple v b) List.Perm := by
  obtain ⟨only, hreads, -⟩ := CompiledQuery.isSimple_iff.mp hsimple
  have hreads' : b.reads = [only] := (List.singleton_perm.mp (hreads ▸ hab.reads)).symm
  unfold simple
  rw [hreads, hreads', ← hab.limit]
  refine (h v only.slice).agree.bind fun found found' hfound => Act.agree_pure ?_
  rw [hfound]

end GraphView

/-! ## The first relation with an id -/

section

variable {α κ : Type} [Ord κ] [Std.TransOrd κ] [Std.LawfulEqOrd κ] [DecidableEq κ] {key : α → κ}

theorem contains_put_eq_false {seen : SortedMap κ Unit} {k k' : κ} :
    (seen.put k ()).contains k' = false ↔ k' ≠ k ∧ seen.contains k' = false := by
  unfold SortedMap.contains
  rw [SortedMap.get?_put]
  split <;> simp [*]

/-- The keys are kept that were not seen before. -/
theorem mem_keys_firstByKey {seen : SortedMap κ Unit} {items : List α} {k : κ} :
    k ∈ (firstByKey key seen items).map key ↔ k ∈ items.map key ∧ seen.contains k = false := by
  induction items generalizing seen with
  | nil => simp [firstByKey]
  | cons item items ih =>
    unfold firstByKey
    split
    · rename_i hseen
      rw [ih, List.map_cons, List.mem_cons]
      refine ⟨fun ⟨hmem, hnew⟩ => ⟨.inr hmem, hnew⟩, fun ⟨hmem, hnew⟩ => ⟨hmem.resolve_left ?_, hnew⟩⟩
      rintro rfl
      rw [hseen] at hnew
      cases hnew
    · rename_i hnew
      rw [List.map_cons, List.map_cons, List.mem_cons, List.mem_cons, ih, contains_put_eq_false]
      constructor
      · rintro (rfl | ⟨hmem, -, hnew⟩)
        · exact ⟨.inl rfl, Bool.not_eq_true _ ▸ hnew⟩
        · exact ⟨.inr hmem, hnew⟩
      · rintro ⟨hmem, hnew⟩
        by_cases hk : k = key item
        · exact .inl hk
        · exact .inr ⟨hmem.resolve_left hk, hk, hnew⟩

/-- No key is kept twice. -/
theorem nodup_keys_firstByKey (seen : SortedMap κ Unit) (items : List α) :
    ((firstByKey key seen items).map key).Nodup := by
  induction items generalizing seen with
  | nil => exact .nil
  | cons item items ih =>
    unfold firstByKey
    split
    · exact ih seen
    · rw [List.map_cons, List.nodup_cons]
      exact ⟨fun hmem => (contains_put_eq_false.mp (mem_keys_firstByKey.mp hmem).2).1 rfl, ih _⟩

end

/-- Two answers with the same ids.  They hold the same relations as well, unless of the relations with one id
only the first was kept (`kept`) and an id stands for two of them. -/
structure AlikeAnswers (kept : Bool) (a b : List Relation) : Prop where
  ids : (a.map (·.id)).Perm (b.map (·.id))
  all : kept = false → a.Perm b
  own : (∀ r ∈ a ++ b, ∀ r' ∈ a ++ b, r.id = r'.id → r = r') → ∀ r, r ∈ a ↔ r ∈ b

namespace AlikeAnswers

variable {kept : Bool} {a b : List Relation}

theorem of_perm (h : a.Perm b) : AlikeAnswers kept a b := ⟨h.map _, fun _ => h, fun _ _ => h.mem_iff⟩

theorem of_ids (h : (a.map (·.id)).Perm (b.map (·.id))) : AlikeAnswers true a b where
  ids := h
  all hkept := by cases hkept
  own hown r := by
    constructor
    · intro hr
      obtain ⟨r', hr', hid⟩ := List.mem_map.mp (h.mem_iff.mp (List.mem_map_of_mem hr))
      rwa [hown r (List.mem_append_left _ hr) r' (List.mem_append_right _ hr') hid.symm]
    · intro hr
      obtain ⟨r', hr', hid⟩ := List.mem_map.mp (h.mem_iff.mpr (List.mem_map_of_mem hr))
      rwa [hown r (List.mem_append_right _ hr) r' (List.mem_append_left _ hr') hid.symm]

end AlikeAnswers

/-- Of the same results in another order those with the same ids are kept. -/
theorem GraphView.alike_dedup {σ : Type} (view : GraphView σ) {a b : List (VertexId × Relation)}
    (h : a.Perm b) :
    AlikeAnswers view.dedup ((Execution.dedup view (fun r => r.2.id) a).map (·.2))
      ((Execution.dedup view (fun r => r.2.id) b).map (·.2)) := by
  unfold Execution.dedup
  cases view.dedup with
  | false => exact .of_perm (h.map _)
  | true =>
    refine .of_ids ?_
    rw [List.map_map, List.map_map]
    refine (List.perm_ext_iff_of_nodup (nodup_keys_firstByKey ..) (nodup_keys_firstByKey ..)).mpr fun id => ?_
    exact mem_keys_firstByKey.trans (Iff.trans (and_congr_left' (h.map _).mem_iff) mem_keys_firstByKey.symm)

/-! ## The rows of a vertex -/

namespace Execution

variable {σ : Type} {e : Execution} {view : GraphView σ} {inv : σ → Prop} {v : VertexId}
  {other : CompiledQuery}

/-- A row answers rearranged queries without limits with the same relations. -/
theorem individual_agree (h : view.ReadsSteadily inv) (hab : e.query.Rearranged other)
    (hm : e.query.limit = ReadLimit.most) (hl : ∀ read ∈ e.query.reads, read.slice.limit = none) :
    (e.individual view v).Agree inv ({ e with query := other }.individual view v) List.Perm := by
  unfold individual
  dsimp only
  rw [← hab.isSimple_eq]
  split
  · rename_i halone
    exact GraphView.simple_agree h hab (Bool.and_eq_true_iff.mp halone).1
  · exact GraphView.general_agree h hab (fun r => hab.evaluate_bind v e.adjacent r v) hm hl

/-- All that the representatives of a vertex answer, merged. -/
def gathered (e : Execution) (view : GraphView σ) (v : VertexId) : Act σ (List (VertexId × Relation)) := do
  let streams ← (view.representatives v e.restrictToPartitions).mapM fun rep => do
    return (← e.individual view rep).map fun r => (rep, r)
  return mergeStreams (fun a b => e.query.order.cmp v a.2 b.2) streams

theorem merged_eq_gathered : e.merged view v = do
    return ReadLimit.cut e.query.limit (dedup view (fun r => r.2.id) (← e.gathered view v)) := by
  unfold merged gathered
  simp only [bind_assoc, pure_bind]

theorem gathered_agree (h : view.ReadsSteadily inv) (hab : e.query.Rearranged other)
    (hm : e.query.limit = ReadLimit.most) (hl : ∀ read ∈ e.query.reads, read.slice.limit = none) :
    (e.gathered view v).Agree inv ({ e with query := other }.gathered view v) List.Perm := by
  unfold gathered
  refine Act.Agree.bind (Act.agree_mapM (R := List.Perm) fun rep _ => ?_) fun streams streams' hstreams => ?_
  · exact (individual_agree h hab hm hl).bind fun part part' hpart => Act.agree_pure (hpart.map _)
  · exact Act.agree_pure ((perm_mergeStreams.trans (.flatten_congr hstreams)).trans perm_mergeStreams.symm)

/-- A vertex is answered the same, but for which relation is kept of those with one id. -/
theorem relations_agree (h : view.ReadsSteadily inv) (hab : e.query.Rearranged other)
    (hm : e.query.limit = ReadLimit.most) (hl : ∀ read ∈ e.query.reads, read.slice.limit = none) :
    (e.relations view v).Agree inv ({ e with query := other }.relations view v)
      (AlikeAnswers (view.dedup && e.isFannedOut view v)) := by
  unfold relations
  rw [show ({ e with query := other } : Execution).isFannedOut view v = e.isFannedOut view v from rfl]
  cases e.isFannedOut view v with
  | false => exact (individual_agree h hab hm hl).mono fun _ _ => .of_perm
  | true =>
    rw [Bool.and_true, if_pos rfl, if_pos rfl, merged_eq_gathered, merged_eq_gathered, bind_assoc, bind_assoc]
    refine (gathered_agree h hab hm hl).bind fun all all' hall => Act.agree_pure ?_
    simp only [ReadLimit.cut, hm, ← hab.limit, if_true]
    exact view.alike_dedup hall

/-- Where all rows can be read a vertex is answered. -/
theorem relations_succeed (h : ∀ w, ∃ row, view.ReadsRow inv w row)
    (hq : e.query.isEmpty = true ∧ e.query.limit = 0 ∨
      e.query.isEmpty = false ∧ e.query.limit = ReadLimit.most ∧
        ∀ read ∈ e.query.reads, read.slice.limit = none) :
    (e.relations view v).Yields inv fun _ => True := by
  have hrow (w : VertexId) : (e.individual view w).Yields inv fun _ => True := by
    obtain ⟨row, hrow⟩ := h w
    exact (individual_all hrow hq).mono fun _ _ => trivial
  unfold relations
  split
  · rw [merged_eq_gathered, gathered]
    simp only [bind_assoc, pure_bind]
    refine (Act.yields_mapM (R := fun _ _ => True) fun rep _ => ?_).bind fun _ _ => Act.yields_pure trivial
    exact (hrow rep).bind fun _ _ => Act.yields_pure trivial
  · exact hrow _

end Execution

namespace Query

variable {s : Setting} {q : Query} {names : List String} {category : Category}

/-- Both orders of the names fail, or both give compiled queries that are rearranged. -/
theorem compile_rel (hp : q.types.Perm names)
    (hmix : category = .relation → q.direction = .into → ¬ q.Mixes (q.types.filterMap s.schema.named?)) :
    Option.Rel (fun c c' => q.compile s category = .ok c ∧ c.Rearranged c')
      (q.compile s category).toOption ((q.withTypes names).compile s category).toOption := by
  cases hc : q.compile s category with
  | ok c =>
    obtain ⟨c', hc', hcc⟩ := compile_withTypes hp hmix hc
    rw [hc']
    exact .some ⟨rfl, hcc⟩
  | error e =>
    cases hc' : (q.withTypes names).compile s category with
    | error e' => exact .none
    | ok c' =>
      -- the other order compiles, and the names of the first are the others in another order
      have hmix' (hrel : category = .relation) (hd : q.direction = .into) :
          ¬ q.Mixes (names.filterMap s.schema.named?) :=
        fun hm => hmix hrel hd (hm.mono (hp.filterMap s.schema.named?).symm.subset)
      obtain ⟨c, hc'', -⟩ := compile_withTypes (q := q.withTypes names) hp.symm hmix' hc'
      rw [show (q.withTypes names).withTypes q.types = q from rfl, hc] at hc''
      cases hc''

theorem checkRunnable_withTypes {c c' : CompiledQuery} (h : c.Rearranged c') (names : List String) :
    (q.withTypes names).checkRunnable c' = q.checkRunnable c := by
  unfold checkRunnable
  rw [h.isEmpty_eq, h.isSimple_eq]
  rfl

end Query

namespace GraphTx

variable {q : Query} {names : List String} {category : Category} {memory : Memory}

/-- Is only the first kept of the results with one id that the representatives of a vertex return? -/
def keepsFirst {S T : Type} (g : GraphTx S T) (schema : Schema) (q : Query) (v : VertexId) : Bool :=
  g.settings.query.partitionDedup &&
    (!q.onlyGivenVertex && !q.namesUniqueTypes schema && g.isPartitioned v)

theorem compileToRun_agree {schema : Schema} (g : GraphTx StoreHandle TxHandle) (hp : q.types.Perm names)
    (hmix : category = .relation → q.direction = .into → ¬ q.Mixes (q.types.filterMap schema.named?)) :
    (g.compileToRun schema q category).Agree (fun s : Local => s.memory = memory)
      (g.compileToRun schema (q.withTypes names) category)
      fun c c' => q.compile (g.setting schema) category = .ok c ∧ c.Rearranged c' := by
  unfold compileToRun compile
  simp only [bind_assoc, pure_bind]
  refine (Act.agree_ofOutcome (Query.compile_rel hp hmix)).bind fun c c' hc => ?_
  refine (Act.agree_update ?_ ?_).bind fun _ _ _ => ?_
  · exact fun s hs => hs
  · exact fun s hs => hs
  rw [Query.checkRunnable_withTypes hc.2]
  exact (Act.steady_ofOutcome _).agree.bind fun _ _ _ => Act.agree_pure hc

theorem answer_agree {schema : Schema} (g : GraphTx StoreHandle TxHandle) (features : Features) (v : VertexId)
    (hp : q.types.Perm names)
    (hmix : category = .relation → q.direction = .into → ¬ q.Mixes (q.types.filterMap schema.named?))
    (hlimit : q.limit = ReadLimit.most) :
    (g.answer features schema q category v).Agree (fun s => s.memory = memory)
      (g.answer features schema (q.withTypes names) category v) (AlikeAnswers (g.keepsFirst schema q v)) := by
  unfold answer askRelations
  rw [Query.implicitKey?_withTypes hp]
  cases q.implicitKey? schema category with
  | some key => exact Act.agree_pure (.of_perm (List.Perm.refl _))
  | none =>
    dsimp only
    rw [bind_assoc, bind_assoc]
    refine (g.compileToRun_agree hp hmix).bind fun c c' ⟨hc, hcc⟩ => ?_
    rw [← hcc.isEmpty_eq]
    cases hempty : c.isEmpty with
    | true => exact Act.agree_pure (.of_perm (List.Perm.refl _))
    | false =>
      have hother : execution schema (q.withTypes names) c' = { execution schema q c with query := c' } := by
        unfold execution
        rw [Query.namesUniqueTypes_withTypes hp]
        rfl
      obtain ⟨hcl, -, hcovers⟩ := Query.compile_limits hc hempty
      change ((execution schema q c).relations (g.view (Local.backend features)) v).Agree _
        ((execution schema (q.withTypes names) c').relations (g.view (Local.backend features)) v) _
      rw [hother]
      exact Execution.relations_agree (fun w slice => g.readSlice_steady features memory w slice) hcc
        (hcl.trans hlimit) fun read hr => (hcovers read hr).1.mpr (if_pos hlimit)

/-- Where the rows can be read, what compiles and may be run is answered. -/
theorem answer_succeeds {schema : Schema} {g : GraphTx StoreHandle TxHandle} {compiled : CompiledQuery}
    (hg : g.CanRead) (features : Features) (v : VertexId) (hrows : ∀ w, (g.rowAt memory w).Readable)
    (hc : q.compile (g.setting schema) category = .ok compiled) (hrun : q.checkRunnable compiled = .ok ())
    (hlimit : q.limit = ReadLimit.most) :
    (g.answer features schema q category v).Yields (fun s => s.memory = memory) fun _ => True := by
  cases himplicit : q.implicitKey? schema category with
  | some key =>
    unfold answer askRelations
    rw [himplicit]
    exact Act.yields_pure trivial
  | none =>
    refine (askRelations_yields himplicit hc hrun).bind fun asked hasked => ?_
    subst hasked
    cases hempty : compiled.isEmpty with
    | true => exact Act.yields_pure trivial
    | false =>
      obtain ⟨hcl, -, hcovers⟩ := Query.compile_limits hc hempty
      exact Execution.relations_succeed (e := execution schema q compiled)
        (fun w => ⟨_, readsRow hg features (hrows w)⟩)
        (.inr ⟨hempty, hcl.trans hlimit, fun read hr => (hcovers read hr).1.mpr (if_pos hlimit)⟩)

/-- The order of type names does not matter, unless a property key and an edge label are named for relations of
any category that come in.  Compiling fails in every order or in none.  Without a limit, in every order
asking fails, or a vertex is answered with the same relations; if only the first relation with an id is kept
there, then with the same ids, and with the same relations if no two that are answered share an id. -/
theorem answers_any_order {schema : Schema} (hp : q.types.Perm names)
    (hmix : category = .relation → q.direction = .into → ¬ q.Mixes (q.types.filterMap schema.named?)) :
    (∀ s : Query.Setting, s.schema = schema →
      (q.compile s category).toOption.isSome = ((q.withTypes names).compile s category).toOption.isSome) ∧
    (q.limit = ReadLimit.most → ∀ (g : GraphTx StoreHandle TxHandle) (features : Features) (v : VertexId)
      (s : Local),
      Option.Rel (AlikeAnswers (g.keepsFirst schema q v))
        ((g.answer features schema q category v).exec s).1.toOption
        ((g.answer features schema (q.withTypes names) category v).exec s).1.toOption ∧
      (g.CanRead → (∀ w, (g.rowAt s.memory w).Readable) → ∀ compiled,
        q.compile (g.setting schema) category = .ok compiled → q.checkRunnable compiled = .ok () →
          ∃ found found', ((g.answer features schema q category v).exec s).1 = .ok found ∧
            ((g.answer features schema (q.withTypes names) category v).exec s).1 = .ok found' ∧
            AlikeAnswers (g.keepsFirst schema q v) found found')) := by
  refine ⟨fun s hs => ?_, fun hlimit g features v s => ?_⟩
  · subst hs
    have hrel := Query.compile_rel hp hmix
    generalize (q.compile s category).toOption = a at hrel
    generalize ((q.withTypes names).compile s category).toOption = b at hrel
    cases hrel <;> rfl
  · have hrel := (g.answer_agree features v hp hmix hlimit s s rfl rfl).2.2
    refine ⟨hrel, fun hg hrows compiled hc hrun => ?_⟩
    obtain ⟨found, s', hfound, -⟩ := answer_succeeds hg features v hrows hc hrun hlimit s rfl
    rw [hfound] at hrel ⊢
    cases hfound' : ((g.answer features schema (q.withTypes names) category v).exec s).1 with
    | error e =>
      rw [hfound'] at hrel
      cases hrel
    | ok found' =>
      rw [hfound'] at hrel
      exact ⟨found, found', rfl, rfl, Option.rel_some_some.mp hrel⟩

end GraphTx

namespace Likes

/-- A like and a friendship of vertex 1. -/
def bonds : List Relation := [.edge ⟨7⟩ ⟨1024⟩ ⟨1⟩ ⟨2⟩, .edge ⟨8⟩ ⟨1026⟩ ⟨1⟩ ⟨3⟩]

def opened : Outcome (GraphTx StoreHandle TxHandle) × Local := (GraphTx.openAfter schema bonds).exec .new

def reader : GraphTx StoreHandle TxHandle :=
  opened.1.toOption.getD
    ⟨⟨0, "edgestore"⟩, "edgestore", none, .steady, [], .empty, .empty, .empty, none, .empty⟩

theorem committed : Committed schema bonds (opened.2.memory.table reader.store.number) := by
  apply Committed.of_check <;> decide +kernel

/-- The relations of any category that go out, of both types. -/
def bondsOut : Query := reader.query schema [.types ["likes", "friend"], .direction .out]

/-- A like and a friendship with one id. -/
def twins : List Relation := [.edge ⟨7⟩ ⟨1024⟩ ⟨1⟩ ⟨2⟩, .edge ⟨7⟩ ⟨1026⟩ ⟨1⟩ ⟨3⟩]

/-- What vertex 1 is answered if it is partitioned, with its own row alone, and of the relations with one id
only the first is kept. -/
def answerFirst (committed : List Relation) (calls : List QueryCall) (category : Category) :
    Option (List Relation) :=
  let act : Act Local (List Relation) := do
    let g ← GraphTx.openAfter schema committed
    let asked := { g.settings.query with partitionDedup := true }
    let g := { g with settings := { g.settings with query := asked } }.withPartitioned ⟨1⟩ [⟨1⟩]
    g.answer Memory.defaultFeatures schema (g.query schema calls) category ⟨1⟩
  (act.exec .new).1.toOption

end Likes

theorem GraphTx.answers_any_order_bonds :
    ∃ found found',
      ((Likes.reader.answer Memory.defaultFeatures Likes.schema Likes.bondsOut .relation ⟨1⟩).exec
        Likes.opened.2).1 = .ok found ∧
      ((Likes.reader.answer Memory.defaultFeatures Likes.schema
        (Likes.bondsOut.withTypes ["friend", "likes"]) .relation ⟨1⟩).exec Likes.opened.2).1 = .ok found' ∧
      found.Perm found' ∧ found ≠ found' := by
  have hperm : Likes.bondsOut.types.Perm ["friend", "likes"] := by decide +kernel
  have hout (hinto : Likes.bondsOut.direction = .into) : False := by
    revert hinto
    decide +kernel
  have hread : Likes.reader.CanRead := ⟨by decide +kernel, by decide +kernel⟩
  have hc : Likes.bondsOut.compile (Likes.reader.setting Likes.schema) .relation = .ok _ :=
    Outcome.eq_ok_getD (by decide +kernel) .empty
  obtain ⟨found, found', hfound, hfound', halike⟩ :=
    ((answers_any_order hperm fun (_ : Category.relation = .relation) hinto => (hout hinto).elim).2
      (by decide +kernel) Likes.reader Memory.defaultFeatures ⟨1⟩ Likes.opened.2).2 hread
      (fun w => Likes.committed.readable_row) _ hc (by exact (Outcome.eq_ok_getD (by decide +kernel) ()))
  refine ⟨found, found', hfound, hfound', halike.all (by decide +kernel), fun he => ?_⟩
  have hbonds : ((Likes.reader.answer Memory.defaultFeatures Likes.schema Likes.bondsOut .relation
      ⟨1⟩).exec Likes.opened.2).1.toOption = some Likes.bonds := by decide +kernel
  have hreverse : ((Likes.reader.answer Memory.defaultFeatures Likes.schema
      (Likes.bondsOut.withTypes ["friend", "likes"]) .relation ⟨1⟩).exec Likes.opened.2).1.toOption
        = some Likes.bonds.reverse := by decide +kernel
  rw [hfound] at hbonds
  rw [hfound', ← he, hbonds] at hreverse
  exact absurd hreverse (by decide)

/-- What is kept at the end where relations come in, of the named types. -/
def Query.incoming (names : List String) : Query :=
  build Layout.Owned.schema ⟨100, false, false⟩ [.types names, .direction .into]

/-- If only the first relation with an id is kept, then the order of the names tells which of two relations
with one id is answered.  And a property key that is passed over may come before an edge label, but not
after it. -/
theorem name_order_matters :
    Likes.answerFirst Likes.twins [.types ["likes", "friend"], .direction .out] .edge =
        some [.edge ⟨7⟩ ⟨1024⟩ ⟨1⟩ ⟨2⟩] ∧
      Likes.answerFirst Likes.twins [.types ["friend", "likes"], .direction .out] .edge =
        some [.edge ⟨7⟩ ⟨1026⟩ ⟨1⟩ ⟨3⟩] ∧
      ((Query.incoming ["time", "owns"]).compile Query.ownedSetting .relation).toOption.isSome = true ∧
      ((Query.incoming ["owns", "time"]).compile Query.ownedSetting .relation).toOption.isSome = false := by
  decide +kernel

end RowGraph
