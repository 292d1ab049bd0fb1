import RowGraph.Proofs.LimitedAnswers
import RowGraph.Proofs.MergedStreams
import RowGraph.Proofs.UnlimitedReads

/-!
# Answers of partitioned vertices

Every representative of a partitioned vertex answers on its own and is cut on its own.  What it answers
is the best part of what it would answer without a limit, from its slice alone or in general
(`individual_best`), and best parts that are merged and cut are the best part of all together, so that
no cut can be told in the merged answer (`merged_best`).  Where columns hold other relations than their
own a representative may answer out of order, and merging keeps it so (`merged_misplaced`).
-/

namespace RowGraph

/-! ## Orders do not depend on the representative -/

namespace ResultOrder

theorem valueOf_base {key : TypeId} (h : ImplicitKey.ofTypeId? key = Option.none) (r : Relation)
    (v w : VertexId) : r.valueOf key v = r.valueOf key w := by
  unfold Relation.valueOf
  rw [h]

/-- Orders by declared keys compare the same from every vertex. -/
theorem cmp_base {o : ResultOrder} (h : o.Declared) (v w : VertexId) (a b : Relation) :
    o.cmp v a b = o.cmp w a b := by
  have hkeys (keys : List TypeId) (hk : ∀ key ∈ keys, ImplicitKey.ofTypeId? key = Option.none) :
      cmpAscending v a b keys = cmpAscending w a b keys := by
    induction keys with
    | nil => rfl
    | cons key keys ih =>
      obtain ⟨hkey, hrest⟩ := List.forall_mem_cons.mp hk
      rw [cmpAscending, cmpAscending, ih hrest, valueOf_base hkey a v w, valueOf_base hkey b v w]
  rw [cmp, cmp, hkeys o.keys h]

instance {α : Type} (o : ResultOrder) (base : VertexId) (f : α → Relation) :
    Std.TransCmp fun a b => o.cmp base (f a) (f b) where
  eq_swap := by
    intro a b
    exact Std.OrientedCmp.eq_swap
  isLE_trans := by
    intro a b c
    exact Std.TransCmp.isLE_trans

end ResultOrder

/-! ## One representative -/

namespace Execution

variable {σ : Type} {e : Execution} {view : GraphView σ} {inv : σ → Prop} {v : VertexId} {row : Row}
  {o : ResultOrder}

/-- What a row answers to a query for all results. -/
def allOf (e : Execution) (view : GraphView σ) (v : VertexId) (row : Row) : List Relation :=
  if e.query.isEmpty then []
  else if e.query.isSimple && (e.onlyLoaded || view.isLoaded v) then
    e.query.reads.flatMap fun read => row.relations (read.slice.withLimit none)
  else GraphView.arranged v e.query (view.candidates v e.query (e.query.bind v e.adjacent) row)

/-- Where a simple query needs nothing but the row it is answered with what its slice holds, cut. -/
theorem individual_simple (h : view.ReadsRow inv v row) (hsimple : e.query.isSimple = true)
    (halone : (e.onlyLoaded || view.isLoaded v) = true) (hlimits : e.query.ReadsEnough) :
    (e.individual view v).Yields inv (· = ReadLimit.cut e.query.limit
      (e.query.reads.flatMap fun read => row.relations (read.slice.withLimit none))) := by
  unfold individual
  rw [hsimple, halone, Bool.and_true, if_pos rfl]
  exact GraphView.simple_whole h hsimple hlimits

/-- A row that is asked answers the best part of all, in an order in which ordered reads come sorted. -/
theorem individual_best (h : view.ReadsRow inv v row) (hsize : row.size ≤ view.hardMax)
    (hmost : view.hardMax ≤ ReadLimit.most) (hne : e.query.isEmpty = false) (hpositive : e.query.limit ≠ 0)
    (hlimits : e.query.ReadsEnough) (ho : o = e.query.order ∨ o.isEmpty = true)
    (hsorted : ∀ read ∈ e.query.reads, read.ordered = true →
      (row.relations (read.slice.withLimit none)).Pairwise fun a b => o.cmp v a b ≠ .gt) :
    (e.individual view v).Yields inv (BestPart (o.cmp v) e.query.limit (e.allOf view v row)) := by
  have harranged (results : List Relation) :
      (GraphView.arranged v e.query results).Pairwise fun a b => o.cmp v a b ≠ .gt := by
    rcases ho with rfl | ho
    · exact GraphView.pairwise_arranged results
    · exact ResultOrder.pairwise_of_isEmpty ho v _
  unfold allOf
  rw [hne, if_neg Bool.false_ne_true]
  split
  · rename_i halone
    obtain ⟨hsimple, halone⟩ := Bool.and_eq_true_iff.mp halone
    obtain ⟨read, hreads, -, hord⟩ := CompiledQuery.isSimple_iff.mp hsimple
    refine (individual_simple h hsimple halone hlimits).mono fun found hfound => ?_
    have hread := hsorted read (by rw [hreads]; exact List.mem_singleton_self _) hord
    rw [hfound, hreads, List.flatMap_singleton]
    exact bestPart_cut hread
  · rename_i halone
    unfold individual
    rw [if_neg halone]
    by_cases hm : e.query.limit = ReadLimit.most
    · refine (GraphView.general_arranged h hm fun read hr => (hlimits read hr).1.mpr hm).mono
        fun part hpart => ?_
      rw [hpart, hm]
      exact bestPart_all (harranged _) (List.Perm.refl _)
    · refine (GraphView.general_limited h hsize hmost hm (fun read hr l hl => ?_) ho hsorted).mono ?_
      · have := (hlimits read hr).2 l hl
        omega
      · rintro part ⟨left, hperm, hlen, hpairwise, hbest⟩
        refine BestPart.of_perm ⟨left, hperm, by rwa [if_neg hm], ?_, hbest⟩
          (GraphView.perm_arranged _).symm
        rcases ho with rfl | ho
        · exact hpairwise
        · exact ResultOrder.pairwise_of_isEmpty ho v _

/-- Without limits a row that is asked answers all. -/
theorem individual_all (h : view.ReadsRow inv v row)
    (hq : e.query.isEmpty = true ∧ e.query.limit = 0 ∨
      e.query.isEmpty = false ∧ e.query.limit = ReadLimit.most ∧
        ∀ read ∈ e.query.reads, read.slice.limit = none) :
    (e.individual view v).Yields inv (· = e.allOf view v row) := by
  rcases hq with ⟨hempty, hzero⟩ | ⟨hne, hm, hl⟩
  · have hreads : e.query.reads = [] := List.isEmpty_iff.mp hempty
    unfold individual allOf
    rw [if_pos hempty, CompiledQuery.isSimple, hreads, Bool.false_and, if_neg Bool.false_ne_true]
    unfold GraphView.general
    rw [hreads, hzero, List.mapM_nil]
    exact Act.yields_pure (by simp [ReadLimit.cut, ReadLimit.most, Word.bound64])
  · unfold allOf
    rw [hne, if_neg Bool.false_ne_true]
    split
    · rename_i halone
      obtain ⟨hsimple, halone⟩ := Bool.and_eq_true_iff.mp halone
      refine (individual_simple h hsimple halone (.of_unlimited hm hl)).mono fun found hfound => ?_
      rw [hfound, ReadLimit.cut, if_pos hm]
    · rename_i halone
      unfold individual
      rw [if_neg halone]
      exact GraphView.general_arranged h hm hl

/-- All that a compiled query answers does not depend on its limit. -/
theorem allOf_unlimited (schema : Schema) (q : Query) (compiled : CompiledQuery) (view : GraphView σ)
    (v : VertexId) (row : Row) :
    (GraphTx.execution schema q.unlimited compiled.unlimited).allOf view v row =
      (GraphTx.execution schema q compiled).allOf view v row := by
  have hcandidates (condition : Condition) : view.candidates v compiled.unlimited condition row =
      view.candidates v compiled condition row := by
    unfold GraphView.candidates
    rw [CompiledQuery.reads_unlimited, List.flatMap_map]
    rfl
  unfold allOf GraphTx.execution GraphView.arranged
  dsimp only
  rw [CompiledQuery.isEmpty_unlimited, CompiledQuery.isSimple_unlimited, CompiledQuery.bind_unlimited,
    CompiledQuery.order_unlimited, hcandidates, CompiledQuery.reads_unlimited, List.flatMap_map]
  rfl

/-! ## All representatives -/

/-- The best part of what a representative has stays that with its representative beside it. -/
theorem yields_stream {rep : VertexId} {all : List Relation}
    (h : (e.individual view rep).Yields inv (BestPart (o.cmp v) e.query.limit all)) :
    (do return (← e.individual view rep).map fun r => (rep, r) : Act σ _).Yields inv
      (BestPart (fun a b : VertexId × Relation => o.cmp v a.2 b.2) e.query.limit (all.map (rep, ·))) := by
  refine h.bind fun part hpart => Act.yields_pure ?_
  exact BestPart.map (f := fun r => (rep, r)) hpart

/-- The best parts of what the representatives have are merged into the best part of what they have
together. -/
theorem merged_yields (hdedup : view.dedup = false) (ho : o = e.query.order ∨ o.isEmpty = true)
    {all : VertexId → List Relation}
    (h : ∀ rep ∈ view.representatives v e.restrictToPartitions,
      (e.individual view rep).Yields inv (BestPart (o.cmp v) e.query.limit (all rep))) :
    (e.merged view v).Yields inv (BestPart (fun a b : VertexId × Relation => o.cmp v a.2 b.2) e.query.limit
      ((view.representatives v e.restrictToPartitions).flatMap fun rep => (all rep).map (rep, ·))) := by
  unfold merged
  refine (Act.yields_mapM fun rep hr => yields_stream (h rep hr)).bind fun streams hstreams => Act.yields_pure ?_
  have hsorted : (mergeStreams (fun a b => e.query.order.cmp v a.2 b.2) streams).Pairwise
      fun a b => o.cmp v a.2 b.2 ≠ .gt := by
    rcases ho with rfl | ho
    · have hsorted := pairwise_of_bestParts hstreams
      exact (pairwise_mergeStreams fun stream hstream =>
        (hsorted stream hstream).imp ResultOrder.isLE_iff_ne_gt.mpr).imp ResultOrder.isLE_iff_ne_gt.mp
    · exact List.pairwise_of_forall fun a b => by simp [ResultOrder.cmp_isEmpty ho]
  rw [dedup, hdedup, if_neg Bool.false_ne_true]
  exact bestPart_merged hstreams perm_mergeStreams hsorted

/-- What the representatives answer is merged and cut. -/
theorem merged_eq (hdedup : view.dedup = false) {all : VertexId → List Relation}
    (h : ∀ rep ∈ view.representatives v e.restrictToPartitions,
      (e.individual view rep).Yields inv (· = all rep)) :
    (e.merged view v).Yields inv (· = ReadLimit.cut e.query.limit
      (mergeStreams (fun a b => e.query.order.cmp v a.2 b.2)
        ((view.representatives v e.restrictToPartitions).map fun rep => (all rep).map (rep, ·)))) := by
  have hstream (rep : VertexId) (hr : rep ∈ view.representatives v e.restrictToPartitions) :
      (do return (← e.individual view rep).map fun r => (rep, r) : Act σ _).Yields inv
        (· = (all rep).map (rep, ·)) :=
    (h rep hr).bind fun part hpart => Act.yields_pure (by rw [hpart])
  unfold merged
  refine (Act.yields_mapM_eq hstream).bind fun streams hstreams => Act.yields_pure ?_
  rw [hstreams, dedup, hdedup, if_neg Bool.false_ne_true]

/-- A query that wants nothing is answered with nothing. -/
theorem merged_nothing (hempty : e.query.isEmpty = true) (hzero : e.query.limit = 0)
    (h : ∀ rep ∈ view.representatives v e.restrictToPartitions, ∃ row, view.ReadsRow inv rep row) :
    (e.merged view v).Yields inv (· = []) := by
  unfold merged
  refine (Act.yields_mapM (R := fun _ _ => True) fun rep hr => ?_).bind fun streams _ => Act.yields_pure ?_
  · obtain ⟨row, hrow⟩ := h rep hr
    exact (individual_all hrow (.inl ⟨hempty, hzero⟩)).bind fun _ _ => Act.yields_pure trivial
  · rw [hzero]
    rfl

end Execution

/-! ## Compiled queries -/

namespace GraphTx

variable {g : GraphTx StoreHandle TxHandle} {memory : Memory} {v : VertexId} {schema : Schema}
  {calls : List QueryCall} {category : Category} {compiled whole : CompiledQuery}

/-- What the row of a vertex answers to a compiled query for all results. -/
def allAt (g : GraphTx StoreHandle TxHandle) (features : Features) (memory : Memory) (schema : Schema)
    (q : Query) (compiled : CompiledQuery) (rep : VertexId) : List Relation :=
  (execution schema q compiled).allOf (g.view (Local.backend features)) rep (g.rowAt memory rep)

/-- A query without a limit is answered with all. -/
theorem unlimited_yields (hg : g.CanRead) (features : Features) {rep : VertexId}
    (hrow : (g.rowAt memory rep).Readable) {q : Query}
    (hw : q.unlimited.compile (g.setting schema) category = .ok whole) :
    ((execution schema q.unlimited whole).individual (g.view (Local.backend features)) rep).Yields
      (fun s => s.memory = memory) (· = g.allAt features memory schema q.unlimited whole rep) := by
  refine Execution.individual_all (readsRow hg features hrow) ?_
  cases hne : whole.isEmpty with
  | true => exact .inl ⟨hne, by rw [Query.eq_empty hw hne]; rfl⟩
  | false =>
    obtain ⟨hlimit, -, hcovers⟩ := Query.compile_limits hw hne
    exact .inr ⟨hne, hlimit, fun read hr => (hcovers read hr).1.mpr q.limit?_unlimited⟩

/-- What is merged is the best part of all, in an order in which ordered reads come sorted. -/
theorem merged_yields {q : Query} {o : ResultOrder} (hg : g.CanRead) (features : Features)
    (hrows : ∀ rep ∈ g.representatives v q.restrictToPartitions,
      (g.rowAt memory rep).Readable ∧ (g.rowAt memory rep).size ≤ g.settings.query.hardMaxLimit)
    (hmost : g.settings.query.hardMaxLimit ≤ ReadLimit.most)
    (hdedup : g.settings.query.partitionDedup = false)
    (hc : q.compile (g.setting schema) category = .ok compiled) (hne : compiled.isEmpty = false)
    (ho : o = compiled.order ∨ o.isEmpty = true) (hdeclared : o.Declared)
    (hsorted : ∀ rep ∈ g.representatives v q.restrictToPartitions, ∀ read ∈ compiled.reads,
      read.ordered = true → ((g.rowAt memory rep).relations (read.slice.withLimit none)).Pairwise
        fun a b => o.cmp rep a b ≠ .gt) :
    ((execution schema q compiled).merged (g.view (Local.backend features)) v).Yields
      (fun s => s.memory = memory)
      (BestPart (fun a b : VertexId × Relation => o.cmp v a.2 b.2) compiled.limit
        ((g.representatives v q.restrictToPartitions).flatMap fun rep =>
          (g.allAt features memory schema q compiled rep).map (rep, ·))) := by
  have hpositive : compiled.limit ≠ 0 := by
    rw [(Query.compile_limits hc hne).1]
    exact Query.limit_ne_zero hc hne
  refine Execution.merged_yields (e := execution schema q compiled) hdedup ho fun rep hr => ?_
  rw [show o.cmp v = o.cmp rep from funext fun a => funext fun b => ResultOrder.cmp_base hdeclared ..]
  exact Execution.individual_best (readsRow hg features (hrows rep hr).1) (hrows rep hr).2 hmost hne
    hpositive (Query.compile_readsEnough hc hne) ho (hsorted rep hr)

theorem length_representatives (reps : List VertexId) (all : VertexId → List Relation) :
    (reps.flatMap fun rep => (all rep).map (rep, ·)).length = (reps.flatMap all).length := by
  simp [List.length_flatMap]

/-- What the representatives of a vertex answer together. -/
theorem merged_best (hs : schema.Built) (hg : g.CanRead) (features : Features)
    (hrows : ∀ rep ∈ g.representatives v (g.query schema calls).restrictToPartitions,
      (g.rowAt memory rep).Readable ∧ (g.rowAt memory rep).size ≤ g.settings.query.hardMaxLimit)
    (hmost : g.settings.query.hardMaxLimit ≤ ReadLimit.most)
    (hdedup : g.settings.query.partitionDedup = false)
    (hc : (g.query schema calls).compile (g.setting schema) category = .ok compiled)
    (hw : (g.query schema calls).unlimited.compile (g.setting schema) category = .ok whole) :
    let q := g.query schema calls
    let view := g.view (Local.backend features)
    let reps := g.representatives v q.restrictToPartitions
    ∃ all : VertexId → List Relation,
      (∀ rep ∈ reps, ((execution schema q.unlimited whole).individual view rep).Yields
        (fun s => s.memory = memory) (· = all rep)) ∧
      ((execution schema q compiled).merged view v).Yields (fun s => s.memory = memory) fun results =>
        ∃ left, (results ++ left).Perm (reps.flatMap fun rep => (all rep).map (rep, ·)) ∧
          results.length = (if q.limit = ReadLimit.most then (reps.flatMap all).length
            else min q.limit (reps.flatMap all).length) ∧
          ((∀ rep ∈ reps, ∀ read ∈ compiled.reads, read.ordered = true →
              (g.rowAt memory rep).WrittenIn schema rep read.slice) →
            (results.Pairwise fun a b => q.order.cmp v a.2 b.2 ≠ .gt) ∧
            ∀ x ∈ left, ∀ y ∈ results, q.order.cmp v x.2 y.2 ≠ .lt) := by
  intro q view reps
  refine ⟨g.allAt features memory schema q.unlimited whole,
    fun rep hr => unlimited_yields hg features (hrows rep hr).1 hw, ?_⟩
  cases hne : compiled.isEmpty with
  | true =>
    obtain rfl := Query.eq_empty hc hne
    refine (Execution.merged_nothing (e := execution schema q .empty) rfl rfl
      fun rep hr => ⟨_, readsRow hg features (hrows rep hr).1⟩).mono ?_
    rintro results rfl
    refine ⟨_, List.Perm.refl _, ?_, fun _ => ⟨.nil, by simp⟩⟩
    by_cases hzero : q.limit = 0
    · rw [hzero, if_neg (by decide), Nat.zero_min]
      rfl
    · -- A query that is empty though it wants results is empty without its limit.
      rw [Query.compile_without_limit hzero, hc] at hw
      obtain rfl := Except.ok.inj hw
      rw [← length_representatives]
      simp [allAt, Execution.allOf, execution, CompiledQuery.empty, CompiledQuery.isEmpty]
  | false =>
    obtain ⟨hlimit, horder, -⟩ := Query.compile_limits hc hne
    rw [Query.compile_without_limit (Query.limit_ne_zero hc hne), hc] at hw
    obtain rfl := Except.ok.inj hw
    have hall : g.allAt features memory schema q.unlimited compiled.unlimited =
        g.allAt features memory schema q compiled :=
      funext fun rep => Execution.allOf_unlimited ..
    rw [hall, ← length_representatives, ← hlimit]
    by_cases hwritten : ∀ rep ∈ reps, ∀ read ∈ compiled.reads, read.ordered = true →
        (g.rowAt memory rep).WrittenIn schema rep read.slice
    · have hdeclared := Query.declared_build hs.sound g.settings.query calls
      refine (merged_yields hg features hrows hmost hdedup hc hne (.inl horder.symm) hdeclared
        fun rep hr read hread hord => ?_).mono ?_
      · exact Query.compile_ordered_within hs.sound hdeclared hc hread hord (hwritten rep hr read hread hord)
      · rintro results ⟨left, hperm, hlen, hpairwise, hleft⟩
        exact ⟨left, hperm, hlen, fun _ => ⟨hpairwise, hleft⟩⟩
    · -- Whatever the order of the row, the number is right: take the order that compares nothing.
      have hempty : ResultOrder.none.isEmpty = true := rfl
      refine (merged_yields hg features hrows hmost hdedup hc hne (.inr hempty) (fun _ hk => by cases hk)
        fun _ _ _ _ _ => ResultOrder.pairwise_of_isEmpty hempty _ _).mono ?_
      rintro results ⟨left, hperm, hlen, -⟩
      exact ⟨left, hperm, hlen, fun h => absurd h hwritten⟩

end GraphTx

/-! ## Representatives with known rows -/

namespace GraphTx

variable {g : GraphTx StoreHandle TxHandle} {memory : Memory} {v : VertexId} {schema : Schema}
  {q : Query} {category : Category} {compiled : CompiledQuery}

/-- A representative answers a simple query with what it holds. -/
theorem individual_of_decodes (hg : g.CanRead) (features : Features) {rep : VertexId}
    {held : List (Bytes × Relation)} (h : (g.rowAt memory rep).Decodes held)
    (hloaded : g.isLoaded rep = true)
    (hc : q.compile (g.setting schema) category = .ok compiled) (hsimple : compiled.isSimple = true) :
    ((execution schema q compiled).individual (g.view (Local.backend features)) rep).Yields
      (fun s => s.memory = memory) (· = compiled.firstOf held) := by
  have hne : compiled.isEmpty = false := by
    obtain ⟨read, hreads, -⟩ := CompiledQuery.isSimple_iff.mp hsimple
    rw [CompiledQuery.isEmpty, hreads]
    rfl
  refine (Execution.individual_simple (readsRow hg features h.readable) hsimple
    (Bool.or_eq_true_iff.mpr (.inr hloaded)) (Query.compile_readsEnough hc hne)).mono fun found hfound => ?_
  rw [hfound]
  exact CompiledQuery.firstOf_eq h

/-- What the representatives hold is cut, merged and cut again. -/
theorem merged_of_decodes (hg : g.CanRead) (features : Features)
    {heldBy : VertexId → List (Bytes × Relation)}
    (h : ∀ rep ∈ g.representatives v q.restrictToPartitions,
      (g.rowAt memory rep).Decodes (heldBy rep) ∧ g.isLoaded rep = true)
    (hdedup : g.settings.query.partitionDedup = false)
    (hc : q.compile (g.setting schema) category = .ok compiled) (hsimple : compiled.isSimple = true) :
    ((execution schema q compiled).merged (g.view (Local.backend features)) v).Yields
      (fun s => s.memory = memory) (· = ReadLimit.cut compiled.limit
        (mergeStreams (fun a b => compiled.order.cmp v a.2 b.2)
          ((g.representatives v q.restrictToPartitions).map fun rep =>
            (compiled.firstOf (heldBy rep)).map (rep, ·)))) :=
  Execution.merged_eq (e := execution schema q compiled) hdedup fun rep hr =>
    individual_of_decodes hg features (h rep hr).1 (h rep hr).2 hc hsimple

theorem CanRead.withPartitioned (h : g.CanRead) (v : VertexId) (reps : List VertexId) :
    (g.withPartitioned v reps).CanRead :=
  ⟨h.1, h.2⟩

theorem rowAt_withPartitioned (v : VertexId) (reps : List VertexId) (memory : Memory) (u : VertexId) :
    (g.withPartitioned v reps).rowAt memory u = g.rowAt memory u := rfl

end GraphTx

/-! ## Ratings of a partitioned vertex -/

namespace Rated

/-- Vertex 9 is kept in the rows of vertices 1 and 2. -/
def partitioned : GraphTx StoreHandle TxHandle := reader.withPartitioned ⟨9⟩ [⟨1⟩, ⟨2⟩]

/-- The least ratings, so many. -/
def least (limit : Nat) : List QueryCall :=
  [.types ["rated"], .direction .out, .orderBy "a" .asc, .limit limit]

def compiledLeast (limit : Nat) : CompiledQuery :=
  ((partitioned.query schema (least limit)).compile (partitioned.setting schema) .edge).toOption.getD .empty

def compiledAll : ((partitioned.query schema (least 1)).unlimited.compile (partitioned.setting schema)
    .edge).Given :=
  Outcome.given (by decide +kernel)

/-- The least ratings of vertex 9. -/
def leastOf (memory : Memory) (limit : Nat) : Option (List (VertexId × Relation)) :=
  (((GraphTx.execution schema (partitioned.query schema (least limit)) (compiledLeast limit)).merged
    (partitioned.view (Local.backend Memory.defaultFeatures)) ⟨9⟩).exec
      { opened.2 with memory := memory }).1.toOption

/-- The second representative has no ratings. -/
def heldSecond : (reader.rowAt opened.2.memory ⟨2⟩).Held := ⟨[], by decide +kernel⟩

def misplacedSecond : (reader.rowAt misplaced ⟨2⟩).Held := ⟨[], by decide +kernel⟩

theorem representatives_eq : partitioned.representatives ⟨9⟩ true = [⟨1⟩, ⟨2⟩] := by decide +kernel

theorem canRead_partitioned : partitioned.CanRead :=
  canRead.withPartitioned ⟨9⟩ [⟨1⟩, ⟨2⟩]

theorem keeps_all : partitioned.settings.query.partitionDedup = false := by decide +kernel

section

variable {memory : Memory} (first : (reader.rowAt memory ⟨1⟩).Held)
  (second : (reader.rowAt memory ⟨2⟩).Held)

/-- What a representative holds. -/
def heldBy (rep : VertexId) : List (Bytes × Relation) :=
  if rep = ⟨1⟩ then first.cells else second.cells

theorem decodes_heldBy : ∀ rep ∈ partitioned.representatives ⟨9⟩ true,
    (partitioned.rowAt memory rep).Decodes (heldBy first second rep) := by
  intro rep hr
  rw [representatives_eq] at hr
  rw [partitioned, GraphTx.rowAt_withPartitioned]
  rcases List.mem_cons.mp hr with rfl | hr
  · exact first.decodes
  · rw [List.mem_singleton.mp hr]
    exact second.decodes

/-- The rows of the representatives can be read whole. -/
theorem rows_whole (hlen : ∀ rep ∈ partitioned.representatives ⟨9⟩ true,
      (heldBy first second rep).length ≤ partitioned.settings.query.hardMaxLimit) :
    ∀ rep ∈ partitioned.representatives ⟨9⟩ true, (partitioned.rowAt memory rep).Readable ∧
      (partitioned.rowAt memory rep).size ≤ partitioned.settings.query.hardMaxLimit := by
  intro rep hr
  have hdecodes := decodes_heldBy first second rep hr
  rw [hdecodes.size_eq]
  exact ⟨hdecodes.readable, hlen rep hr⟩

/-- What the representatives hold is cut, merged and cut again. -/
theorem leastOf_eq {limit : Nat}
    (hc : (partitioned.query schema (least limit)).compile (partitioned.setting schema) .edge =
      .ok (compiledLeast limit))
    (hsimple : (compiledLeast limit).isSimple = true)
    (hrestrict : (partitioned.query schema (least limit)).restrictToPartitions = true) :
    leastOf memory limit = some (ReadLimit.cut (compiledLeast limit).limit (mergeStreams
      (fun a b => (compiledLeast limit).order.cmp ⟨9⟩ a.2 b.2)
      ([⟨1⟩, ⟨2⟩].map fun rep =>
        ((compiledLeast limit).firstOf (heldBy first second rep)).map (rep, ·)))) := by
  have hloaded : ∀ rep ∈ partitioned.representatives ⟨9⟩ true, partitioned.isLoaded rep = true := by
    decide +kernel
  obtain ⟨results, s', hrun, -, hresults⟩ := GraphTx.merged_of_decodes (v := ⟨9⟩) canRead_partitioned
    Memory.defaultFeatures (fun rep hr =>
      ⟨decodes_heldBy first second rep (hrestrict ▸ hr), hloaded rep (hrestrict ▸ hr)⟩)
    keeps_all hc hsimple { opened.2 with memory := memory } rfl
  rw [leastOf, hrun, hresults, hrestrict, representatives_eq]
  rfl

end

end Rated

/-- Of the two ratings that the representatives have together one is the least. -/
theorem GraphTx.merged_best_rated :
    ∃ results s', ((execution Rated.schema (Rated.partitioned.query Rated.schema (Rated.least 1))
      (Rated.compiledLeast 1)).merged (Rated.partitioned.view (Local.backend Memory.defaultFeatures))
        ⟨9⟩).exec Rated.opened.2 = (.ok results, s') ∧ results.length = 1 := by
  have hrestrict : (Rated.partitioned.query Rated.schema (Rated.least 1)).restrictToPartitions = true := by
    decide +kernel
  have hc : (Rated.partitioned.query Rated.schema (Rated.least 1)).compile
      (Rated.partitioned.setting Rated.schema) .edge = .ok (Rated.compiledLeast 1) :=
    Outcome.eq_ok_getD (by decide +kernel) _
  have hdecodes := Rated.decodes_heldBy Rated.held Rated.heldSecond
  obtain ⟨all, hall, hmerged⟩ := GraphTx.merged_best (v := ⟨9⟩) Rated.schema_built
    Rated.canRead_partitioned Memory.defaultFeatures
    (by rw [hrestrict]; exact Rated.rows_whole Rated.held Rated.heldSecond (by decide +kernel))
    (by decide +kernel) Rated.keeps_all hc Rated.compiledAll.2
  obtain ⟨results, s', hrun, -, left, -, hlen, -⟩ := hmerged Rated.opened.2 rfl
  rw [hrestrict, Rated.representatives_eq] at hall hlen
  -- the first representative has two
  have hfirst : (⟨1⟩ : VertexId) ∈ Rated.partitioned.representatives ⟨9⟩ true := by
    rw [Rated.representatives_eq]
    exact List.mem_cons_self
  obtain ⟨answer, _, hanswer, -, hone⟩ := hall ⟨1⟩ List.mem_cons_self Rated.opened.2 rfl
  obtain ⟨answer', _, hanswer', -, htwo⟩ := GraphTx.individual_of_decodes Rated.canRead_partitioned
    Memory.defaultFeatures (hdecodes ⟨1⟩ hfirst) (by decide +kernel) Rated.compiledAll.2
    (by decide +kernel) Rated.opened.2 rfl
  obtain rfl : answer = answer' := Except.ok.inj (congrArg Prod.fst (hanswer.symm.trans hanswer'))
  have hlength : answer.length = 2 := by
    rw [htwo]
    decide +kernel
  have hlimit : (Rated.partitioned.query Rated.schema (Rated.least 1)).limit = 1 := by decide +kernel
  refine ⟨results, s', hrun, hlen.trans ?_⟩
  rw [hlimit, if_neg (by decide), List.flatMap_cons, List.length_append, ← hone, hlength]
  omega

/-- Where columns hold other relations than their own the merged answer is not sorted, and what is left
out may come before what is not. -/
theorem merged_misplaced :
    (∀ rep ∈ Rated.partitioned.representatives ⟨9⟩ true,
      (Rated.partitioned.rowAt Rated.misplaced rep).Readable ∧
        (Rated.partitioned.rowAt Rated.misplaced rep).size ≤
          Rated.partitioned.settings.query.hardMaxLimit) ∧
    Rated.partitioned.settings.query.partitionDedup = false ∧
    (∀ limit ∈ [1, 5], (Rated.partitioned.query Rated.schema (Rated.least limit)).compile
      (Rated.partitioned.setting Rated.schema) .edge = .ok (Rated.compiledLeast limit)) ∧
    Rated.leastOf Rated.misplaced 5 = some [(⟨1⟩, Rated.rating 9 9), (⟨1⟩, Rated.rating 7 1)] ∧
    Rated.leastOf Rated.misplaced 1 = some [(⟨1⟩, Rated.rating 9 9)] ∧
    (Rated.partitioned.query Rated.schema (Rated.least 1)).order.cmp ⟨9⟩ (Rated.rating 7 1)
      (Rated.rating 9 9) = .lt := by
  have hcompiled : ∀ limit ∈ [1, 5],
      (Rated.partitioned.query Rated.schema (Rated.least limit)).compile
        (Rated.partitioned.setting Rated.schema) .edge = .ok (Rated.compiledLeast limit) := by
    have hok : ∀ limit ∈ [1, 5],
        ((Rated.partitioned.query Rated.schema (Rated.least limit)).compile
          (Rated.partitioned.setting Rated.schema) .edge).toOption.isSome := by decide +kernel
    exact fun limit hl => Outcome.eq_ok_getD (hok limit hl) _
  have hsimple : ∀ limit ∈ [1, 5], (Rated.compiledLeast limit).isSimple = true ∧
      (Rated.partitioned.query Rated.schema (Rated.least limit)).restrictToPartitions = true := by
    decide +kernel
  have hleast (limit : Nat) (hl : limit ∈ [1, 5]) :=
    Rated.leastOf_eq Rated.heldMisplaced Rated.misplacedSecond (hcompiled limit hl) (hsimple limit hl).1
      (hsimple limit hl).2
  refine ⟨Rated.rows_whole Rated.heldMisplaced Rated.misplacedSecond (by decide +kernel),
    Rated.keeps_all, hcompiled, ?_, ?_, by decide +kernel⟩
  · rw [hleast 5 (by decide)]
    decide +kernel
  · rw [hleast 1 (by decide)]
    decide +kernel

end RowGraph
