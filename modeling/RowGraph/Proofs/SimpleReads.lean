import RowGraph.Proofs.LimitedAnswers
import RowGraph.Proofs.LocalChanges

/-!
# Simple queries read once

A simple query may be answered from its one slice alone, without looking at local changes.  At a vertex
without local changes the general answer is the same: as many relations are read as are wanted, so that
nothing is read again, none of them was removed, none was added, and sorting finds them sorted
(`simple_general`).  In a row that holds relations of other vertices, or holds them under columns of
other relations, the two answers differ (`simple_not_general`).
-/

namespace RowGraph

/-! ## One fitted and ordered read -/

namespace GraphView

variable {σ : Type} {view : GraphView σ} {inv : σ → Prop} {v : VertexId} {condition : Condition}
  {q : CompiledQuery} {read : PlannedRead}

/-- What is found in a fitted slice counts if none of it was removed. -/
theorem kept_eq_self (condition : Condition) {found : List Relation}
    (h : ∀ r ∈ found, view.isRemoved r.id = false) :
    view.kept v condition true found = found := by
  refine List.filter_eq_self.mpr fun r hr => ?_
  rw [h r hr]
  rfl

/-- Relations in the order of the query are arranged already. -/
theorem arranged_eq_self {results : List Relation}
    (h : results.Pairwise fun a b => q.order.cmp v a b ≠ .gt) : arranged v q results = results := by
  unfold arranged
  split
  · rfl
  · exact List.mergeSort_of_pairwise (h.imp ResultOrder.isLE_iff_ne_gt.mpr)

/-- A fitted read of which nothing was removed reads its slice once, if its limit is not below that of
the query. -/
theorem readAll_fitted (hf : read.fitted = true) (ho : read.ordered = true)
    (hlimit : ∀ l, read.slice.limit = some l → q.limit ≤ l)
    (h : (view.read v read.slice).Ensures inv fun found => ∀ r ∈ found, view.isRemoved r.id = false) :
    Act.SameFrom inv (view.read v read.slice) (view.readAll v q condition read) := by
  unfold readAll
  rw [hf]
  cases hl : read.slice.limit with
  | none => exact .map h fun found hfound => kept_eq_self condition hfound
  | some limit =>
    simp only [ho, Bool.not_true, Bool.false_and, Bool.false_eq_true, if_false]
    unfold readUntil
    rw [hf, Row.withLimit_eq_self hl]
    intro s hs
    rw [Act.SameFrom.map h (fun found hfound => kept_eq_self condition hfound) s hs]
    refine Act.SameFrom.bind h (.refl _) (fun found hfound => ?_) s hs
    dsimp only
    rw [kept_eq_self condition hfound, if_neg]
    · exact .refl _
    · have := hlimit limit hl
      omega

/-- Running a query with one fitted and ordered read in general reads its slice, if nothing was added
and what the slice holds was not removed and comes in the order of the query. -/
theorem general_of_read (hreads : q.reads = [read]) (hf : read.fitted = true) (ho : read.ordered = true)
    (hlimit : ∀ l, read.slice.limit = some l → q.limit ≤ l) (hadded : view.addedAt v = [])
    (h : (view.read v read.slice).Ensures inv fun found =>
      (∀ r ∈ found, view.isRemoved r.id = false) ∧ found.Pairwise fun a b => q.order.cmp v a b ≠ .gt) :
    Act.SameFrom inv (view.simple v q) (view.general v q condition) := by
  unfold simple general
  rw [hreads, hadded]
  simp only [List.mapM_cons, List.mapM_nil, bind_assoc, pure_bind, List.filter_nil, List.append_nil,
    List.flatten_cons, List.flatten_nil]
  refine Act.SameFrom.bind h (readAll_fitted hf ho hlimit (h.mono fun _ hfound => hfound.1))
    fun found hfound => ?_
  have harranged : (if q.order.isEmpty then found else q.order.sort v found) = found :=
    arranged_eq_self hfound.2
  rw [harranged]
  exact .refl _

end GraphView

/-! ## Simple queries at vertices without local changes -/

/-- The relation decodes from some value of the table. -/
def Table.Keeps (t : Table) (r : Relation) : Prop :=
  ∃ x ∈ t.entries, Relation.ofStoredBytes x.2.value = .ok r

namespace Stored

variable {schema : Schema} {relations : List Relation} {table : Table} {v : VertexId}

theorem mem_of_keeps (h : Stored schema relations table) {r : Relation} (hr : table.Keeps r) :
    r ∈ relations := by
  obtain ⟨x, hx, hdecode⟩ := hr
  obtain ⟨r', hr', es, hes, hm⟩ := (h.entries x).mp hx
  rw [((Layout.mem_entriesFor hes).mp hm).1] at hdecode
  rwa [h.faithful r' hr' r hdecode]

/-- Where relations were written, each is under its columns. -/
theorem writtenIn (h : Stored schema relations table) (slice : Slice) :
    (table.row (Layout.rowKey v)).WrittenIn schema v slice := by
  rintro ⟨c, val⟩ hm _ r hdecode
  obtain ⟨r', hr', rfl, hplaced⟩ := h.mem_row.mp hm
  rwa [h.faithful r' hr' r hdecode]

/-- Where relations were written, each is in the rows of its ends. -/
theorem isIncident (h : Stored schema relations table) {slice : Slice} {r : Relation}
    (hr : r ∈ (table.row (Layout.rowKey v)).relations (slice.withLimit none)) : r.isIncident v = true := by
  obtain ⟨-, base, t, d, c, hp, -⟩ := h.placed_of_mem_relations hr
  exact Relation.isIncident_of_sitsAt hp.sitsAt

end Stored

namespace GraphTx

variable {g : GraphTx StoreHandle TxHandle} {memory : Memory} {v : VertexId} {schema : Schema}
  {settings : QuerySettings} {calls : List QueryCall} {category : Category} {compiled : CompiledQuery}
  {hardMax : Nat} {modified : Bool} {slice : Slice} {r : Relation}

/-- What a row holds is kept in the table. -/
theorem keeps_of_mem_relations (hr : r ∈ (g.rowAt memory v).relations (slice.withLimit none)) :
    (memory.table g.store.number).Keeps r := by
  obtain ⟨c, val, hm, -, hdecode⟩ := Row.mem_relations_unlimited.mp hr
  exact ⟨_, Table.mem_entries.mpr hm, hdecode⟩

/-- At a vertex without local changes a simple query has one answer, whichever way it is run: what its
slice holds, cut. -/
theorem simple_general (hs : schema.Built) (features : Features)
    (hc : (Query.build schema settings calls).compile ⟨schema, hardMax, modified⟩ category = .ok compiled)
    (hsimple : compiled.isSimple = true)
    (hg : g.EditedAtEnds (memory.table g.store.number).Keeps) (hv : g.isLoaded v = true)
    (hends : ∀ read ∈ compiled.reads, ∀ r ∈ (g.rowAt memory v).relations (read.slice.withLimit none),
      g.isRemoved r.id = true → r.isIncident v = true)
    (hwritten : compiled.order.isEmpty = false →
      ∀ read ∈ compiled.reads, (g.rowAt memory v).WrittenIn schema v read.slice) :
    let view := g.view (Local.backend features)
    let condition := compiled.bind v (Query.build schema settings calls).adjacent
    Act.SameFrom (fun s : Local => s.memory = memory) (view.simple v compiled)
        (view.general v compiled condition) ∧
      (g.CanRead → (g.rowAt memory v).Readable → ∃ read, compiled.reads = [read] ∧
        (view.simple v compiled).Yields (fun s => s.memory = memory)
          (· = ReadLimit.cut compiled.limit ((g.rowAt memory v).relations read.slice))) := by
  intro view condition
  obtain ⟨read, hreads, hf, ho⟩ := CompiledQuery.isSimple_iff.mp hsimple
  have hmem : read ∈ compiled.reads := by rw [hreads]; exact List.mem_singleton_self _
  have hne : compiled.isEmpty = false := by rw [CompiledQuery.isEmpty, hreads]; rfl
  obtain ⟨-, horder, -⟩ := Query.compile_limits hc hne
  have hremoved : ∀ r ∈ (g.rowAt memory v).relations read.slice, g.isRemoved r.id = false := by
    intro r hr
    have hr := Row.relations_subset hr
    by_contra hremoved
    have hincident := hends read hmem r hr (eq_true_of_ne_false hremoved)
    exact hremoved (hg.not_removed hv (keeps_of_mem_relations hr) hincident)
  have hsorted : ((g.rowAt memory v).relations read.slice).Pairwise
      fun a b => compiled.order.cmp v a b ≠ .gt := by
    cases hempty : compiled.order.isEmpty with
    | true => exact ResultOrder.pairwise_of_isEmpty hempty v _
    | false =>
      rw [horder]
      exact (Query.compile_ordered_within hs.sound (Query.declared_build hs.sound _ calls) hc hmem ho
        (hwritten hempty read hmem)).sublist Row.relations_sublist
  refine ⟨GraphView.general_of_read hreads hf ho (fun l hl => ?_) (hg.touched.addedAt_eq_nil hv) ?_,
    fun hcan hrow => ⟨read, hreads, ?_⟩⟩
  · exact (Query.compile_readsEnough hc hne read hmem).2 l hl
  · refine (g.readSlice_exact features v read.slice).mono fun found hfound => ?_
    rw [hfound]
    exact ⟨hremoved, hsorted⟩
  · exact GraphView.simple_yields (readsRow hcan features hrow) hreads

end GraphTx

/-! ## Ratings answered both ways -/

namespace Rated

/-- A query that the reader compiles to a simple one without a limit. -/
structure SimpleQuery where
  calls : List QueryCall
  compiled : CompiledQuery
  compile_eq : (Query.build schema reader.settings.query calls).compile (reader.setting schema) .edge =
    .ok compiled
  simple : compiled.isSimple = true
  limit : compiled.limit = ReadLimit.most
  limits : ∀ read ∈ compiled.reads, read.slice.limit = none

/-- The ratings of vertex 1, the least first. -/
def byRating : SimpleQuery :=
  ⟨[.types ["rated"], .direction .out, .orderBy "a" .asc], _,
    Outcome.eq_ok_getD (by decide +kernel) .empty, by decide +kernel, by decide +kernel,
    by decide +kernel⟩

theorem reader_unchanged (stored : Relation → Prop) : reader.EditedAtEnds stored :=
  .unchanged (by decide +kernel) (by decide +kernel)

/-- The transaction after changes at other vertices. -/
def edited : GraphTx StoreHandle TxHandle :=
  (reader.add (.edge ⟨50⟩ ⟨1026⟩ ⟨5⟩ ⟨6⟩)).remove (.edge ⟨51⟩ ⟨1026⟩ ⟨3⟩ ⟨4⟩)

/-- The edges of vertex 1 by a compiled query, from its first slice alone. -/
def alone (g : GraphTx StoreHandle TxHandle) (memory : Memory) (q : CompiledQuery) :
    Option (List Relation) :=
  (((g.view (Local.backend Memory.defaultFeatures)).simple ⟨1⟩ q).exec
    { opened.2 with memory := memory }).1.toOption

/-- The edges of vertex 1 by a compiled query in general. -/
def throughout (g : GraphTx StoreHandle TxHandle) (memory : Memory) (q : CompiledQuery) :
    Option (List Relation) :=
  (((g.view (Local.backend Memory.defaultFeatures)).general ⟨1⟩ q (q.bind ⟨1⟩ none)).exec
    { opened.2 with memory := memory }).1.toOption

section

variable {g : GraphTx StoreHandle TxHandle} {memory : Memory} {held : List (Bytes × Relation)}

theorem alone_eq (hg : g.CanRead) (h : (g.rowAt memory ⟨1⟩).Decodes held) (q : SimpleQuery) :
    alone g memory q.compiled = some (q.compiled.firstOf held) := by
  have hyields := GraphView.simple_whole (GraphTx.readsRow hg Memory.defaultFeatures h.readable) q.simple
    (.of_unlimited q.limit q.limits)
  obtain ⟨found, s', hrun, -, hfound⟩ := hyields { opened.2 with memory := memory } rfl
  rw [alone, hrun, hfound, CompiledQuery.firstOf_eq h]
  rfl

theorem throughout_eq (hg : g.CanRead) (h : (g.rowAt memory ⟨1⟩).Decodes held) (q : SimpleQuery) :
    throughout g memory q.compiled = some (GraphView.arranged ⟨1⟩ q.compiled
      ((g.view (Local.backend Memory.defaultFeatures)).candidates ⟨1⟩ q.compiled
        (q.compiled.bind ⟨1⟩ none) (g.rowAt memory ⟨1⟩))) := by
  have hrow := GraphTx.readsRow hg Memory.defaultFeatures h.readable
  obtain ⟨found, s', hrun, -, hfound⟩ :=
    GraphView.general_arranged hrow q.limit q.limits { opened.2 with memory := memory } rfl
  rw [throughout, hrun, hfound]
  rfl

end

end Rated

/-- Changes at other vertices leave the ratings of vertex 1 as they are, and both ways give them. -/
theorem GraphTx.simple_general_rated :
    let view := Rated.edited.view (Local.backend Memory.defaultFeatures)
    let q := Rated.byRating.compiled
    ∃ results s', (view.simple ⟨1⟩ q).exec Rated.opened.2 = (.ok results, s') ∧
      (view.general ⟨1⟩ q (q.bind ⟨1⟩ none)).exec Rated.opened.2 = (.ok results, s') ∧
      results.length = 2 := by
  have hstore : Rated.edited.store = Rated.reader.store := by simp [Rated.edited]
  have hstored : Stored Rated.schema [Rated.rating 9 9, Rated.rating 7 1]
      (Rated.opened.2.memory.table Rated.edited.store.number) := by
    rw [hstore]
    exact Rated.committed.toStored
  have hedited : Rated.edited.EditedAtEnds
      (Rated.opened.2.memory.table Rated.edited.store.number).Keeps := by
    refine ((Rated.reader_unchanged _).add _).remove fun a ha hid => ?_
    have hids : ∀ r ∈ [Rated.rating 9 9, Rated.rating 7 1], r.id ≠ ⟨51⟩ := by decide +kernel
    exact absurd hid (hids a (hstored.mem_of_keeps ha))
  obtain ⟨hsame, hyields⟩ := GraphTx.simple_general (v := ⟨1⟩) Rated.schema_built Memory.defaultFeatures
    Rated.byRating.compile_eq Rated.byRating.simple hedited (by decide +kernel)
    (fun _ _ r hr _ => hstored.isIncident hr) fun _ read _ => hstored.writtenIn read.slice
  have hrow : Rated.reader.rowAt Rated.opened.2.memory ⟨1⟩ =
      Rated.edited.rowAt Rated.opened.2.memory ⟨1⟩ := by
    unfold GraphTx.rowAt
    rw [hstore]
  have hdecodes : (Rated.edited.rowAt Rated.opened.2.memory ⟨1⟩).Decodes Rated.held.cells := by
    rw [← hrow]
    exact Rated.held.decodes
  have hcan : Rated.edited.CanRead := ⟨by decide +kernel, by decide +kernel⟩
  obtain ⟨read, hreads, hyield⟩ := hyields hcan hdecodes.readable
  obtain ⟨results, s', hrun, -, -⟩ := hyield Rated.opened.2 rfl
  refine ⟨results, s', hrun, (hsame Rated.opened.2 rfl).symm.trans hrun, ?_⟩
  have halone : Rated.alone Rated.edited Rated.opened.2.memory Rated.byRating.compiled = some results := by
    unfold Rated.alone
    rw [hrun]
    rfl
  rw [Rated.alone_eq hcan hdecodes] at halone
  rw [← Option.some.inj halone]
  decide +kernel

/-! ## A row with a relation of others -/

namespace Rated

/-- A rating of vertex 4 by vertex 3. -/
def stray : Relation := { rating 7 1 with outVertex := ⟨3⟩, inVertex := some ⟨4⟩ }

/-- The row of vertex 1 with the rating of another vertex under its columns. -/
def strayed : Memory :=
  let row := reader.rowAt opened.2.memory ⟨1⟩
  opened.2.memory.mutate reader.store.number (Layout.rowKey ⟨1⟩)
    ⟨row.keys.map fun column => ⟨column, stray.storedBytes⟩, []⟩

/-- The transaction after the removal of the rating of the other vertex. -/
def remover : GraphTx StoreHandle TxHandle := reader.remove stray

def heldStrayed : (remover.rowAt strayed ⟨1⟩).Held :=
  ⟨[(columnOf (rating 7 1), stray), (columnOf (rating 9 9), stray)], by decide +kernel⟩

theorem eq_stray {r : Relation} (h : (strayed.table remover.store.number).Keeps r) : r = stray := by
  have hkeys : ∀ x ∈ (strayed.table remover.store.number).entries, x.1 = Layout.rowKey ⟨1⟩ := by
    decide +kernel
  obtain ⟨⟨key, entry⟩, hx, hdecode⟩ := h
  obtain rfl : key = Layout.rowKey ⟨1⟩ := hkeys _ hx
  obtain ⟨held, hheld, hstray⟩ := heldStrayed.decodes.exists_held (Table.mem_entries.mp hx)
  have hall : ∀ x ∈ [(columnOf (rating 7 1), stray), (columnOf (rating 9 9), stray)], x.2 = stray := by
    simp
  exact (Except.ok.inj (hdecode.symm.trans hstray)).trans (hall held hheld)

/-- The ratings of vertex 1 in any order. -/
def anyOrder : SimpleQuery :=
  ⟨[.types ["rated"], .direction .out], _, Outcome.eq_ok_getD (by decide +kernel) .empty,
    by decide +kernel, by decide +kernel, by decide +kernel⟩

end Rated

/-- Where columns hold other relations than their own the simple answer is not sorted, and where the row
of a vertex holds a relation of others it is there even if it was removed. -/
theorem simple_not_general :
    ((Query.build Rated.schema Rated.reader.settings.query Rated.byRating.calls).compile
        (Rated.reader.setting Rated.schema) .edge = .ok Rated.byRating.compiled ∧
      Rated.byRating.compiled.isSimple = true ∧
      Rated.reader.EditedAtEnds (Rated.misplaced.table Rated.reader.store.number).Keeps ∧
      Rated.reader.isLoaded ⟨1⟩ = true ∧
      Rated.alone Rated.reader Rated.misplaced Rated.byRating.compiled =
        some [Rated.rating 9 9, Rated.rating 7 1] ∧
      Rated.throughout Rated.reader Rated.misplaced Rated.byRating.compiled =
        some [Rated.rating 7 1, Rated.rating 9 9]) ∧
    (Query.build Rated.schema Rated.reader.settings.query Rated.anyOrder.calls).compile
        (Rated.reader.setting Rated.schema) .edge = .ok Rated.anyOrder.compiled ∧
      Rated.anyOrder.compiled.isSimple = true ∧
      Rated.remover.EditedAtEnds (Rated.strayed.table Rated.remover.store.number).Keeps ∧
      Rated.remover.isLoaded ⟨1⟩ = true ∧
      Rated.alone Rated.remover Rated.strayed Rated.anyOrder.compiled = some [Rated.stray, Rated.stray] ∧
      Rated.throughout Rated.remover Rated.strayed Rated.anyOrder.compiled = some [] := by
  have hremover : Rated.remover.CanRead := ⟨by decide +kernel, by decide +kernel⟩
  refine ⟨⟨Rated.byRating.compile_eq, Rated.byRating.simple, Rated.reader_unchanged _,
    by decide +kernel, ?_, ?_⟩, Rated.anyOrder.compile_eq, Rated.anyOrder.simple, ?_,
    by decide +kernel, ?_, ?_⟩
  · rw [Rated.alone_eq Rated.canRead Rated.heldMisplaced.decodes]
    decide +kernel
  · have hall : (Rated.reader.view (Local.backend Memory.defaultFeatures)).candidates ⟨1⟩
        Rated.byRating.compiled (Rated.byRating.compiled.bind ⟨1⟩ none)
        (Rated.reader.rowAt Rated.misplaced ⟨1⟩) = [Rated.rating 9 9, Rated.rating 7 1] := by
      rw [GraphView.candidates_of_decodes Rated.heldMisplaced.decodes]
      decide +kernel
    rw [Rated.throughout_eq Rated.canRead Rated.heldMisplaced.decodes, hall, GraphView.arranged,
      if_neg (by decide +kernel), ResultOrder.sort_pair (by decide +kernel)]
  · exact (Rated.reader_unchanged _).remove fun a ha _ => by rw [Rated.eq_stray ha]; exact ⟨rfl, rfl⟩
  · rw [Rated.alone_eq hremover Rated.heldStrayed.decodes]
    decide +kernel
  · rw [Rated.throughout_eq hremover Rated.heldStrayed.decodes,
      GraphView.candidates_of_decodes Rated.heldStrayed.decodes]
    decide +kernel

end RowGraph
