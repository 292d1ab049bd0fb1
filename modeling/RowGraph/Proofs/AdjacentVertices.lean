import RowGraph.Proofs.RearrangedAnswers
import RowGraph.Proofs.VertexLists

/-!
# Vertices adjacent to partitioned vertices

Several relations of a partitioned vertex may lead to the same vertex, from one representative or from many.
Where results that come again are dropped no vertex is listed twice by a query without an order, which compares
the vertices (`nodup_vertices`, `nodup_vertexIds`).

A query with an order compares the relations, and takes their other ends after that (`adjacent_distinct`).  So
no relation counts twice, but a vertex is listed as often as relations with ids of their own lead to it
(`parallel_listed_twice`).
-/

namespace RowGraph

namespace Execution

variable {σ : Type} {e : Execution} {view : GraphView σ} {v : VertexId}

/-- No two of the results that are kept have the same key. -/
theorem nodup_dedup {α κ : Type} [Ord κ] [Std.TransOrd κ] [Std.LawfulEqOrd κ] [DecidableEq κ]
    (h : view.dedup = true) (key : α → κ) (results : List α) : ((dedup view key results).map key).Nodup := by
  unfold dedup
  rw [if_pos h]
  exact nodup_keys_firstByKey ..

/-! ## Without an order -/

theorem nodup_vertices (hdedup : view.dedup = true) (hfanned : e.isFannedOut view v = true)
    (horder : e.query.order.isEmpty = true) : (e.vertices view v).Ensures (fun _ => True) List.Nodup := by
  have hkept (streams : List (List VertexId)) :
      (ReadLimit.cut e.query.limit (dedup view id (mergeStreams compare streams))).Nodup := by
    have hnodup := nodup_dedup hdedup id (mergeStreams compare streams)
    rw [List.map_id] at hnodup
    exact hnodup.sublist (ReadLimit.cut_sublist ..)
  unfold vertices
  rw [hfanned, horder]
  exact (Act.ensures_mapM fun _ _ _ _ => ⟨trivial, fun _ _ => trivial⟩).bind fun streams _ =>
    Act.ensures_pure (hkept streams)

/-- No vertex is listed twice, and those that are listed were seen. -/
def ListedOnce (found : VertexList × SortedMap VertexId Unit) : Prop :=
  found.1.ids.Nodup ∧ ∀ w ∈ found.1.ids, found.2.contains w = true

theorem ListedOnce.gather (hdedup : view.dedup = true) {found : VertexList × SortedMap VertexId Unit}
    (h : ListedOnce found) (vs : List VertexId) : ListedOnce (gather view found vs) := by
  induction vs generalizing found with
  | nil => exact h
  | cons w vs ih =>
    obtain ⟨list, seen⟩ := found
    obtain ⟨hnodup, hseen⟩ := h
    unfold Execution.gather
    rw [hdedup, Bool.true_and]
    split
    · exact ih ⟨hnodup, hseen⟩
    · rename_i hnew
      have hfree : w ∉ list.ids := fun hw => hnew (hseen w hw)
      refine ih ⟨?_, fun u hu => ?_⟩
      · refine List.nodup_append.mpr ⟨hnodup, List.pairwise_singleton .., ?_⟩
        rintro a ha _ hb rfl
        exact hfree (List.mem_singleton.mp hb ▸ ha)
      · unfold SortedMap.contains
        rw [SortedMap.get?_put]
        split
        · rfl
        · rename_i hne
          obtain hu | hu := List.mem_append.mp hu
          · exact hseen u hu
          · exact absurd (List.mem_singleton.mp hu) hne

theorem nodup_gatherFrom (hdedup : view.dedup = true) {found : VertexList × SortedMap VertexId Unit}
    (h : ListedOnce found) (reps : List VertexId) :
    (e.gatherFrom view found reps).Ensures (fun _ => True) fun list => list.ids.Nodup := by
  induction reps generalizing found with
  | nil => exact Act.ensures_pure h.1
  | cons rep reps ih =>
    unfold gatherFrom
    refine Act.Ensures.bind (P := fun _ => True) (fun _ _ => ⟨trivial, fun _ _ => trivial⟩) fun vs _ => ?_
    have hnext := h.gather hdedup vs
    dsimp only
    split
    · exact Act.ensures_pure hnext.1
    · exact ih hnext

theorem nodup_vertexIds (hdedup : view.dedup = true) (hfanned : e.isFannedOut view v = true)
    (horder : e.query.order.isEmpty = true) :
    (e.vertexIds view v).Ensures (fun _ => True) fun list => list.ids.Nodup := by
  have hnone : ListedOnce (.empty, .empty) := ⟨List.nodup_nil, fun _ hw => by cases hw⟩
  unfold vertexIds
  rw [hfanned, horder]
  exact (nodup_gatherFrom hdedup hnone _).bind fun list hlist =>
    Act.ensures_pure (hlist.sublist (List.take_sublist ..))

/-! ## With an order -/

theorem vertices_eq (hfanned : e.isFannedOut view v = true) (horder : e.query.order.isEmpty = false) :
    e.vertices view v = do return mergedEnds (← e.merged view v) := by
  unfold vertices
  rw [hfanned, horder]
  rfl

theorem vertexIds_eq (hfanned : e.isFannedOut view v = true) (horder : e.query.order.isEmpty = false) :
    e.vertexIds view v = do return .collect (mergedEnds (← e.merged view v)) := by
  unfold vertexIds
  rw [hfanned, horder]
  rfl

theorem nodup_merged (hdedup : view.dedup = true) :
    (e.merged view v).Ensures (fun _ => True) fun results => (results.map (·.2.id)).Nodup := by
  rw [merged_eq_gathered]
  refine Act.Ensures.bind (P := fun _ => True) (fun _ _ => ⟨trivial, fun _ _ => trivial⟩) fun all _ => ?_
  have hnodup := nodup_dedup hdedup (fun r : VertexId × Relation => r.2.id) all
  exact Act.ensures_pure (hnodup.sublist ((ReadLimit.cut_sublist ..).map _))

/-- No vertex is listed twice if no two of the results lead to the same one. -/
theorem nodup_mergedEnds_iff (results : List (VertexId × Relation)) : (mergedEnds results).Nodup ↔
    results.Pairwise fun a b => ∀ w ∈ a.2.otherVertex? a.1, w ∉ b.2.otherVertex? b.1 := by
  unfold mergedEnds List.Nodup
  rw [List.pairwise_filterMap]
  refine ⟨fun h => h.imp fun hab w hw hw' => hab w hw w hw' rfl, fun h => h.imp fun hab w hw w' hw' he => ?_⟩
  exact hab w hw (he ▸ hw')

end Execution

/-! ## Queries -/

namespace GraphTx

open Execution (mergedEnds)

variable {σ S T : Type} [Metered σ]

section

variable {g : GraphTx S T} {schema : Schema} {q : Query} {category : Category}

/-- What is run after compiling is run with what the query compiles to. -/
theorem compileToRun_bind_congr {α : Type} {f f' : CompiledQuery → Act σ α}
    (h : ∀ compiled, q.compile (g.setting schema) category = .ok compiled → f compiled = f' compiled) :
    (g.compileToRun schema q category >>= f) = g.compileToRun schema q category >>= f' := by
  unfold compileToRun compile
  cases hc : q.compile (g.setting schema) category with
  | error e => rfl
  | ok compiled =>
    have hpure : (Act.ofOutcome (.ok compiled) : Act σ CompiledQuery) = pure compiled := rfl
    simp only [hpure, bind_assoc, pure_bind, h compiled hc]

theorem ensures_compileToRun : (g.compileToRun schema q category : Act σ CompiledQuery).Ensures
    (fun _ => True) fun compiled => q.compile (g.setting schema) category = .ok compiled := by
  unfold compileToRun compile
  rw [bind_assoc]
  refine (Act.ensures_ofOutcome fun _ h => h).bind fun compiled hc => ?_
  simp only [bind_assoc, pure_bind]
  refine (Act.ensures_update fun _ _ => trivial).bind fun _ _ => ?_
  exact (Act.ensures_ofOutcome fun _ _ => trivial).bind (P := fun _ => True) fun _ _ => Act.ensures_pure hc

end

variable [Timed σ]

/-- The vertices adjacent to a vertex, asked for and pulled. -/
def adjacent (b : Backend σ S T) (schema : Schema) (q : Query) (v : VertexId) (g : GraphTx S T) :
    Act σ (List VertexId) := do
  g.pullVertices b (← g.askVertices schema q v)

/-- The edges of a partitioned vertex, each with the representative that it came from. -/
def mergedEdges (b : Backend σ S T) (schema : Schema) (q : Query) (v : VertexId) (g : GraphTx S T) :
    Act σ (List (VertexId × Relation)) := do
  let compiled ← g.compileToRun schema q .edge
  if compiled.isEmpty then return [] else (execution schema q compiled).merged (g.view b) v

variable {b : Backend σ S T} {g : GraphTx S T} {schema : Schema} {q : Query} {v : VertexId}

theorem adjacent_eq : g.adjacent b schema q v = (do
    let compiled ← g.compileToRun schema q .edge
    if compiled.isEmpty then return [] else (execution schema q compiled).vertices (g.view b) v) := by
  unfold adjacent askVertices
  rw [bind_assoc]
  refine congrArg (_ >>= ·) (funext fun compiled => ?_)
  cases compiled.isEmpty <;> rfl

/-- Where a partitioned vertex is fanned out and results that come again are dropped: without an order no vertex
is listed twice.  With an order no relation is taken twice, and the other ends of all relations that are taken
are listed, so that no vertex is listed twice just if no two of these relations lead to the same vertex. -/
theorem adjacent_distinct (b : Backend σ S T) (h : g.keepsFirst schema q v = true) :
    (q.order.isEmpty = true →
      (g.adjacent b schema q v).Ensures (fun _ => True) List.Nodup ∧
      (g.vertexIds b schema q v).Ensures (fun _ => True) fun list => list.ids.Nodup) ∧
    (q.order.isEmpty = false →
      (g.mergedEdges b schema q v).Ensures (fun _ => True) (fun results =>
        (results.map (·.2.id)).Nodup ∧ ((mergedEnds results).Nodup ↔
          results.Pairwise fun a b => ∀ w ∈ a.2.otherVertex? a.1, w ∉ b.2.otherVertex? b.1)) ∧
      (g.adjacent b schema q v = do return mergedEnds (← g.mergedEdges b schema q v)) ∧
      (do return (← g.vertexIds b schema q v).ids : Act σ _) = do
        return mergedEnds (← g.mergedEdges b schema q v)) := by
  obtain ⟨hdedup, hfanned⟩ := Bool.and_eq_true_iff.mp h
  have hcompiled {compiled : CompiledQuery} (hc : q.compile (g.setting schema) .edge = .ok compiled)
      (hne : compiled.isEmpty = false) : compiled.order = q.order := (Query.compile_limits hc hne).2.1
  constructor
  · intro horder
    constructor
    · rw [adjacent_eq]
      refine ensures_compileToRun.bind fun compiled hc => ?_
      cases hempty : compiled.isEmpty with
      | true => exact Act.ensures_pure List.nodup_nil
      | false => exact Execution.nodup_vertices hdedup hfanned (by rw [← horder, ← hcompiled hc hempty]; rfl)
    · unfold vertexIds
      refine ensures_compileToRun.bind fun compiled hc => ?_
      cases hempty : compiled.isEmpty with
      | true => exact Act.ensures_pure List.nodup_nil
      | false => exact Execution.nodup_vertexIds hdedup hfanned (by rw [← horder, ← hcompiled hc hempty]; rfl)
  · intro horder
    refine ⟨?_, ?_, ?_⟩
    · unfold mergedEdges
      refine Act.Ensures.mono ?_ fun results hresults => ⟨hresults, Execution.nodup_mergedEnds_iff results⟩
      refine ensures_compileToRun.bind fun compiled _ => ?_
      cases compiled.isEmpty with
      | true => exact Act.ensures_pure List.nodup_nil
      | false => exact Execution.nodup_merged hdedup
    · rw [adjacent_eq, mergedEdges, bind_assoc]
      refine compileToRun_bind_congr fun compiled hc => ?_
      cases hempty : compiled.isEmpty with
      | true => rfl
      | false => exact Execution.vertices_eq hfanned (by rw [← horder, ← hcompiled hc hempty]; rfl)
    · rw [vertexIds, mergedEdges, bind_assoc, bind_assoc]
      refine compileToRun_bind_congr fun compiled hc => ?_
      cases hempty : compiled.isEmpty with
      | true => rfl
      | false =>
        have hids : (execution schema q compiled).vertexIds (g.view b) v = _ :=
          Execution.vertexIds_eq hfanned (by rw [← horder, ← hcompiled hc hempty]; rfl)
        simp only [Bool.false_eq_true, if_false, hids, bind_assoc, pure_bind, VertexList.ids_collect]

end GraphTx

/-! ## Parallel edges -/

namespace Rated

/-- Vertex 9 is kept in the rows of vertices 1 and 2, and results that come again are dropped. -/
def once : GraphTx StoreHandle TxHandle :=
  let asked := { partitioned.settings.query with partitionDedup := true }
  { partitioned with settings := { partitioned.settings with query := asked } }

/-- The vertices that vertex 9 has rated, by both ways to ask for them. -/
def ratedBy (calls : List QueryCall) : Option (List VertexId) × Option (List VertexId) :=
  let b := Local.backend Memory.defaultFeatures
  let q := once.query schema calls
  (((once.adjacent b schema q ⟨9⟩).exec opened.2).1.toOption,
    ((once.vertexIds b schema q ⟨9⟩).exec opened.2).1.toOption.map VertexList.ids)

/-- The ratings that go out. -/
def outgoing : List QueryCall := [.types ["rated"], .direction .out]

end Rated

/-- Both ratings of vertex 1 lead to vertex 2, which is listed once without an order. -/
theorem GraphTx.adjacent_distinct_rated :
    ∃ vs list,
      ((Rated.once.adjacent (Local.backend Memory.defaultFeatures) Rated.schema
        (Rated.once.query Rated.schema Rated.outgoing) ⟨9⟩).exec Rated.opened.2).1 = .ok vs ∧
      ((Rated.once.vertexIds (Local.backend Memory.defaultFeatures) Rated.schema
        (Rated.once.query Rated.schema Rated.outgoing) ⟨9⟩).exec Rated.opened.2).1 = .ok list ∧
      vs.Nodup ∧ list.ids.Nodup ∧ list.ids = [⟨2⟩] := by
  have hkeeps : Rated.once.keepsFirst Rated.schema (Rated.once.query Rated.schema Rated.outgoing) ⟨9⟩ = true := by
    decide +kernel
  obtain ⟨hvertices, hids⟩ := (adjacent_distinct (Local.backend Memory.defaultFeatures) hkeeps).1
    (by decide +kernel)
  have hvs : ((Rated.once.adjacent (Local.backend Memory.defaultFeatures) Rated.schema
      (Rated.once.query Rated.schema Rated.outgoing) ⟨9⟩).exec Rated.opened.2).1 = .ok _ :=
    Outcome.eq_ok_getD (by decide +kernel) []
  have hlist : ((Rated.once.vertexIds (Local.backend Memory.defaultFeatures) Rated.schema
      (Rated.once.query Rated.schema Rated.outgoing) ⟨9⟩).exec Rated.opened.2).1 = .ok _ :=
    Outcome.eq_ok_getD (by decide +kernel) .empty
  refine ⟨_, _, hvs, hlist, (hvertices _ trivial).2 _ hvs, (hids _ trivial).2 _ hlist, ?_⟩
  decide +kernel

/-- By their ratings the vertices are listed with vertex 2 twice, though results that come again are dropped. -/
theorem parallel_listed_twice :
    Rated.once.settings.query.partitionDedup = true ∧
      Rated.once.keepsFirst Rated.schema (Rated.once.query Rated.schema (Rated.least 5)) ⟨9⟩ = true ∧
      Rated.ratedBy (Rated.least 5) = (some [⟨2⟩, ⟨2⟩], some [⟨2⟩, ⟨2⟩]) := by
  decide +kernel

end RowGraph
