import RowGraph.Proofs.LimitedAnswers

/-!
# Fitted reads need no check

A read is called fitted if every relation in its slice satisfies the conditions of the query.  That is
so as long as no name of the query and no stored relation has an index for its type and no layout of a
named type repeats a key in its sort key (`fitted_satisfies`); then running the query with all reads
checked makes no difference (`general_uncheck`).  Each of the three is needed (`fitted_unsatisfied`).
-/

namespace RowGraph

open Layout (Placed)

/-! ## What a fitted read holds -/

namespace Query

variable {s : Setting} {q : Query} {read : PlannedRead} {category : Category}
  {compiled : CompiledQuery} {r : Relation} {v : VertexId} {base layout : RelationType}
  {e : Direction} {c : Bytes} {conditions : List Condition} {d : Direction}

/-- The relations of a category whose types are in the slice of the category. -/
theorem inCategory_iff {t : RelationType} (h : r.isEdge = t.isEdgeLabel) (category : Category) :
    Condition.inCategory category r = Layout.ofCategory category t := by
  unfold Condition.inCategory Layout.ofCategory Relation.category
  rw [h, RelationType.isPropertyKey_eq]
  cases category <;> cases t.isEdgeLabel <;> rfl

/-- A relation in the slice of a query without types is of its category and visibility. -/
theorem untyped_conditions (hs : s.schema.Sound) (hfit : r.Fits s.schema base)
    (hbi : base.isIndex = false) (hp : Placed s.schema r v base layout e c)
    (h : untypedRead s q d category conditions = .ok read) (hc : read.slice.contains c = true) :
    (Condition.category category).evaluate r v = true ∧
      (Condition.visibility q.system).evaluate r v = true ∧ layout = base := by
  obtain ⟨slice, hslice, ⟨limit, -, he⟩, -⟩ := untypedRead_eq_ok h
  rw [he, ReadPlan.contains_withLimit] at hc
  obtain ⟨hi, hsys, hcat⟩ := (Layout.contains_categorySlice hs hp hslice).mp hc
  obtain rfl := hp.eq_of_not_index hs hi
  refine ⟨?_, ?_, rfl⟩
  · rw [Condition.evaluate, inCategory_iff hfit.category]
    exact hcat
  · rw [Condition.evaluate, ← Schema.id_of_type hp.typed]
    exact beq_iff_eq.mpr hsys

theorem fitted_satisfies (hs : s.schema.Sound) (hnames : NamesNoIndex s.schema q.types)
    (hkeys : NamesDistinctKeys s.schema q.types)
    (h : q.compile s category = .ok compiled) (hr : read ∈ compiled.reads)
    (hf : read.fitted = true) (hfit : r.Fits s.schema base) (hbi : base.isIndex = false)
    (hp : Placed s.schema r v base layout e c) (hc : read.slice.contains c = true) :
    (compiled.bind v q.adjacent).evaluate r v = true := by
  rcases compile_eq_ok h with ⟨rfl, -⟩ | ⟨d, conditions, hwanted, hnormal, hplan⟩
  · cases hr
  · rcases plan_eq_ok hplan with ⟨-, only, honly, rfl⟩ | ⟨-, -, rfl⟩ | ⟨-, types, reads, hreads, he⟩
    · obtain rfl := List.mem_singleton.mp hr
      obtain ⟨hcat, hvis, -⟩ := untyped_conditions hs hfit hbi hp honly hc
      obtain ⟨-, -, -, hfitted, -⟩ := untypedRead_eq_ok honly
      rw [hfitted] at hf
      simp only [Bool.and_eq_true, Bool.or_eq_true, beq_iff_eq, List.isEmpty_iff,
        Option.isNone_iff_eq_none] at hf
      obtain ⟨⟨hend, rfl⟩, hadj⟩ := hf
      rw [evaluate_bind (by simp)]
      refine ⟨by simp [hcat, hvis], ?_, by simp [KeyIntervals.leadsTo, hadj]⟩
      rcases hend with rfl | ⟨rfl, rfl⟩
      · exact Relation.isIncident_of_sitsAt hp.sitsAt
      · have hin : r.inVertex = none := by
          cases hv : r.inVertex with
          | none => rfl
          | some w =>
            simp [Condition.evaluate, Condition.inCategory, Relation.category, Relation.isEdge, hv] at hcat
        have hsit := hp.sitsAt
        have hmem := (Layout.mem_ends.mp hp.sits).1
        cases e <;> simp_all [Direction.ends, Relation.sitsAt]
    · cases hr
    · rcases he with ⟨-, rfl⟩ | ⟨hne, rfl⟩
      · cases hr
      · obtain ⟨-, hid, hcov⟩ := readsOfTypes_sound hs hnames hreads hr hbi hp hc
        obtain ⟨hall, hin⟩ := readsOfTypes_fitted hs hkeys hreads hr hp hc hf
        obtain ⟨hconds, hlead⟩ := KeyIntervals.of_inside_of_fitted (kindsFit_of_fits hs hfit v)
          (Constraint.normalize_typed hs hnormal) hall hin
        rw [evaluate_bind hne]
        refine ⟨fun cond hcond => ?_, Relation.sitsAt_of_covers hcov hp.sitsAt, hlead⟩
        rcases List.mem_append.mp hcond with hcond | hcond
        · exact hconds cond hcond
        · rw [List.mem_singleton.mp hcond, Condition.evaluate, ← Schema.id_of_type hp.typed]
          exact List.contains_iff_mem.mpr hid

end Query

/-! ## Running with all reads checked -/

/-- The query with every read to be checked. -/
def CompiledQuery.unfitted (q : CompiledQuery) : CompiledQuery :=
  { q with reads := q.reads.map fun read => { read with fitted := false } }

namespace GraphView

variable {σ : Type} {view : GraphView σ} {inv : σ → Prop} {v : VertexId} {row : Row}
  {condition : Condition} {q : CompiledQuery} {read : PlannedRead}

/-- All that a read holds satisfies the condition, if the read says so. -/
def Truthful (v : VertexId) (condition : Condition) (row : Row) (read : PlannedRead) : Prop :=
  read.fitted = true →
    ∀ r ∈ row.relations (read.slice.withLimit none), condition.evaluate r v = true

theorem kept_unfitted (h : Truthful v condition row read) {relations : List Relation}
    (hsub : ∀ r ∈ relations, r ∈ row.relations (read.slice.withLimit none)) :
    view.kept v condition read.fitted relations = view.kept v condition false relations := by
  unfold kept
  refine List.filter_congr fun r hr => ?_
  cases hf : read.fitted with
  | false => rfl
  | true => rw [h hf r (hsub r hr)]; rfl

/-- What the view reads in a slice is what decodes from the row, or part of it. -/
def ReadsWithin (view : GraphView σ) (inv : σ → Prop) (v : VertexId) (row : Row) : Prop :=
  ∀ slice, (view.read v slice).Ensures inv fun found =>
    ∀ r ∈ found, r ∈ row.relations (slice.withLimit none)

theorem readUntil_ensures (h : view.ReadsWithin inv v row) (target limit : Nat) :
    (view.readUntil v condition read target limit).Ensures inv fun _ => True := by
  induction hn : view.hardMax - limit using Nat.strongRecOn generalizing limit with
  | ind n ih =>
    unfold readUntil
    refine (h _).bind fun found _ => ?_
    dsimp only
    split
    · rename_i hmore
      have hle : ReadLimit.next limit view.hardMax ≤ view.hardMax := Nat.min_le_right ..
      exact ih _ (by omega) _ rfl
    · exact Act.ensures_pure trivial

theorem readAll_ensures (h : view.ReadsWithin inv v row) :
    (view.readAll v q condition read).Ensures inv fun _ => True := by
  unfold readAll
  split
  · exact (h _).bind fun found _ => Act.ensures_pure trivial
  · exact readUntil_ensures h _ _

theorem readUntil_unfitted (h : view.ReadsWithin inv v row) (ht : Truthful v condition row read)
    (target limit : Nat) :
    Act.SameFrom inv (view.readUntil v condition read target limit)
      (view.readUntil v condition { read with fitted := false } target limit) := by
  induction hn : view.hardMax - limit using Nat.strongRecOn generalizing limit with
  | ind n ih =>
    unfold readUntil
    refine .bind (h _) (.refl _) fun found hfound => ?_
    have hkept : view.kept v condition read.fitted found = view.kept v condition false found :=
      kept_unfitted ht hfound
    dsimp only
    rw [hkept]
    split
    · rename_i hmore
      have hle : ReadLimit.next limit view.hardMax ≤ view.hardMax := Nat.min_le_right ..
      exact ih _ (by omega) _ rfl
    · exact .refl _

theorem readAll_unfitted (h : view.ReadsWithin inv v row) (ht : Truthful v condition row read) :
    Act.SameFrom inv (view.readAll v q condition read)
      (view.readAll v q.unfitted condition { read with fitted := false }) := by
  unfold readAll
  cases hl : read.slice.limit with
  | none =>
    refine .bind (h _) (.refl _) fun found hfound => ?_
    rw [kept_unfitted ht hfound]
    exact .refl _
  | some limit => exact readUntil_unfitted h ht _ _

/-- If all reads are truthful, checking them makes no difference. -/
theorem general_unfitted (h : view.ReadsWithin inv v row)
    (ht : ∀ read ∈ q.reads, Truthful v condition row read) :
    Act.SameFrom inv (view.general v q condition) (view.general v q.unfitted condition) := by
  unfold general
  refine .bind (Act.ensures_mapM fun read _ => readAll_ensures h)
    (.mapM (fun read _ => readAll_ensures h) fun read hr => readAll_unfitted h (ht read hr))
    fun parts _ => ?_
  exact .refl _

end GraphView

namespace GraphTx

variable {g : GraphTx StoreHandle TxHandle} {memory : Memory} {v : VertexId} {schema : Schema}
  {relations : List Relation} {q : Query} {category : Category} {compiled : CompiledQuery}

/-- Every committed relation in a fitted slice satisfies the condition, and checking it changes no
answer. -/
theorem general_uncheck (hs : schema.Built) (features : Features)
    (hstore : Stored schema relations (memory.table g.store.number))
    (hnames : Query.NamesNoIndex schema q.types) (hkeys : Query.NamesDistinctKeys schema q.types)
    (hc : q.compile (g.setting schema) category = .ok compiled) :
    (∀ read ∈ compiled.reads, read.fitted = true → ∀ r ∈ relations, ∀ base layout d c,
      Placed schema r v base layout d c → read.slice.contains c = true →
        (compiled.bind v q.adjacent).evaluate r v = true) ∧
    Act.SameFrom (fun s : Local => s.memory = memory)
      ((g.view (Local.backend features)).general v compiled (compiled.bind v q.adjacent))
      ((g.view (Local.backend features)).general v compiled.unfitted
        (compiled.bind v q.adjacent)) := by
  have hall : ∀ read ∈ compiled.reads, read.fitted = true → ∀ r ∈ relations, ∀ base layout d c,
      Placed schema r v base layout d c → read.slice.contains c = true →
        (compiled.bind v q.adjacent).evaluate r v = true := by
    intro read hread hf r hr base layout d c hp hcon
    obtain ⟨hfit, hbi⟩ := hstore.fits_of_placed hr hp
    exact Query.fitted_satisfies (s := g.setting schema) hs.sound hnames hkeys hc hread hf hfit hbi hp
      hcon
  refine ⟨hall, ?_⟩
  have hreads : (g.view (Local.backend features)).ReadsWithin (fun s => s.memory = memory) v
      (g.rowAt memory v) := g.readSlice_ensures features v
  refine GraphView.general_unfitted hreads fun read hread hf r hr => ?_
  obtain ⟨hr, base, layout, d, c, hp, hcon⟩ := hstore.placed_of_mem_relations hr
  exact hall read hread hf r hr base layout d c hp hcon

theorem general_uncheck_rated :
    ∃ compiled, (Rated.reader.query Rated.schema Rated.nines).compile
        (Rated.reader.setting Rated.schema) .edge = .ok compiled ∧
      compiled.reads.any (fun read => read.fitted) = true ∧
      (Rated.view.general ⟨1⟩ compiled (compiled.bind ⟨1⟩ none)).exec Rated.opened.2 =
        (Rated.view.general ⟨1⟩ compiled.unfitted (compiled.bind ⟨1⟩ none)).exec Rated.opened.2 := by
  have hc : (Rated.reader.query Rated.schema Rated.nines).compile
      (Rated.reader.setting Rated.schema) .edge = .ok _ :=
    Outcome.eq_ok_getD (by decide +kernel) .empty
  have hnames : Query.NamesNoIndex Rated.schema (Rated.reader.query Rated.schema Rated.nines).types :=
    fun _ _ t ht => (by decide +kernel : ∀ t ∈ Rated.schema.types, t.isIndex = false) t
      (Schema.mem_of_named ht)
  have hkeys : Query.NamesDistinctKeys Rated.schema
      (Rated.reader.query Rated.schema Rated.nines).types :=
    fun _ _ _ _ layout hl _ =>
      (by decide +kernel : ∀ layout ∈ Rated.schema.types, layout.sortKey.Nodup) layout hl
  refine ⟨_, hc, by decide +kernel, ?_⟩
  exact (general_uncheck Rated.schema_built Memory.defaultFeatures Rated.committed.toStored hnames
    hkeys hc).2 Rated.opened.2 rfl

end GraphTx

/-! ## Where fitted reads do need a check -/

namespace Misfit

/-- Ratings that are sorted twice by `a`, with an index by `b`. -/
def schema : Schema :=
  (Schema.ofSteps [
    .define (.propertyKey "a" .int),
    .define (.propertyKey "b" .int),
    .define { TypeDefinition.edgeLabel "rated" with sortKey := ["a", "a"] },
    .index ⟨"rated", "byb", ["b"], .both, .asc, .enabled⟩]).toOption.getD .initial

/-- A rating of vertex 2 by vertex 1 with one as its `a` and nine as its `b`. -/
def rating : Relation :=
  { Relation.edge ⟨7⟩ ⟨1026⟩ ⟨1⟩ ⟨2⟩ with
    properties := .ofList [(⟨1024⟩, .int 1), (⟨1025⟩, .int 9)] }

/-- A rating of vertex 3 by vertex 1 that is stored under the index. -/
def indexed : Relation :=
  { Relation.edge ⟨8⟩ ⟨1027⟩ ⟨1⟩ ⟨3⟩ with properties := .ofList [(⟨1025⟩, .int 9)] }

/-- The edges of vertex 1 that run the query of some calls, with fitted reads and with all checked. -/
def edges (stored : List Relation) (calls : List QueryCall) :
    Option (List Relation × List Relation) := do
  let (g, s) := (GraphTx.openAfter schema stored).exec .new
  let g ← g.toOption
  let q := g.query schema calls
  let compiled ← (q.compile (g.setting schema) .edge).toOption
  let view := g.view (Local.backend Memory.defaultFeatures)
  let run (query : CompiledQuery) :=
    ((view.general ⟨1⟩ query (compiled.bind ⟨1⟩ q.adjacent)).exec s).1.toOption
  return (← run compiled, ← run compiled.unfitted)

end Misfit

/-- A key that a sort key repeats counts for two, and the test of another key is not made.  Under the
name of an index the relations of its base come, whose type is another one, and under the name of the
base those that are stored under the index. -/
theorem fitted_unsatisfied :
    Misfit.edges [Misfit.rating] [.types ["rated"], .direction .out,
        .hasCompared "a" .eq (.int 1), .hasCompared "b" .eq (.int 2)] =
      some ([Misfit.rating], []) ∧
    Misfit.edges [Misfit.rating] [.types ["byb"], .direction .out,
        .hasCompared "b" .eq (.int 9)] = some ([Misfit.rating], []) ∧
    Misfit.edges [Misfit.rating, Misfit.indexed] [.types ["rated"], .direction .out,
        .hasCompared "b" .eq (.int 9)] = some ([Misfit.rating, Misfit.indexed], [Misfit.rating]) := by
  decide +kernel

end RowGraph
