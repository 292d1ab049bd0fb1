import RowGraph.Proofs.CompiledReads
import RowGraph.Answer.Lazy
import RowGraph.Storage.Local

/-!
# Reading rows

What a graph transaction reads from a row in memory are the relations that decode from it, in column
order (`readSlice_yields`).  Where a table was written for a set of committed relations
(`Committed`), a slice holds the relations that have a column in it, and no others
(`Committed.mem_relations`).

* `Table.mem_entries`: the entries of a table are the cells of its rows.
* `kindsFit_of_fits`: a relation that fits its type holds values of the declared kinds only.
-/

namespace RowGraph

open Layout (Placed rowKey entriesFor)

/-! ## Tables and rows -/

/-- All cells of a table, each with the key of its row. -/
def Table.entries (t : Table) : List (Bytes × Entry) :=
  t.toList.flatMap fun p => p.2.toList.map fun b => (p.1, ⟨b.1, b.2⟩)

theorem Table.mem_entries {t : Table} {key c val : Bytes} :
    (key, ⟨c, val⟩) ∈ t.entries ↔ (c, val) ∈ (t.row key).toList := by
  unfold entries Table.row
  simp only [List.mem_flatMap, List.mem_map, Prod.mk.injEq, Entry.mk.injEq, Prod.exists]
  constructor
  · rintro ⟨_, row, hrow, _, _, hb, rfl, rfl, rfl⟩
    rw [SortedMap.mem_toList_iff.mp hrow]
    exact hb
  · intro h
    cases hrow : t.get? key with
    | none =>
      rw [hrow] at h
      cases h
    | some row =>
      rw [hrow] at h
      exact ⟨key, row, SortedMap.mem_toList_iff.mpr hrow, c, val, h, rfl, rfl, rfl⟩

namespace Row

/-- The relations that decode from the entries of a slice, in column order. -/
def relations (row : Row) (s : Slice) : List Relation :=
  (row.read s).filterMap fun e => (Relation.ofStoredBytes e.value).toOption

/-- Every value of the row decodes. -/
def Readable (row : Row) : Prop := ∀ b ∈ row.toList, ∃ r, Relation.ofStoredBytes b.2 = .ok r

variable {row : Row} {s : Slice}

theorem withLimit_eq_self {l : Option Nat} (h : s.limit = l) : s.withLimit l = s := by
  rw [Slice.withLimit, ← h]

theorem mem_read_unlimited {e : Entry} :
    e ∈ row.read (s.withLimit none) ↔ (e.column, e.value) ∈ row.toList ∧ s.contains e.column = true := by
  simp only [Row.read, Slice.withLimit, List.mem_map, List.mem_filter, Prod.exists]
  constructor
  · rintro ⟨c, val, ⟨hm, hc⟩, rfl⟩
    exact ⟨hm, hc⟩
  · rintro ⟨hm, hc⟩
    exact ⟨e.column, e.value, ⟨hm, hc⟩, rfl⟩

theorem read_limited (n : Nat) : row.read (s.withLimit (some n)) = (row.read (s.withLimit none)).take n :=
  rfl

theorem read_subset {e : Entry} (h : e ∈ row.read s) : e ∈ row.read (s.withLimit none) := by
  cases hs : s.limit with
  | none => rwa [withLimit_eq_self hs]
  | some n =>
    rw [← withLimit_eq_self hs, read_limited] at h
    exact List.mem_of_mem_take h

theorem mem_of_mem_read {e : Entry} (h : e ∈ row.read s) : (e.column, e.value) ∈ row.toList :=
  (mem_read_unlimited.mp (read_subset h)).1

/-- A slice with a limit holds a part of what it holds without one. -/
theorem relations_sublist : (row.relations s).Sublist (row.relations (s.withLimit none)) := by
  unfold relations
  refine List.Sublist.filterMap _ ?_
  cases hs : s.limit with
  | none => rw [withLimit_eq_self hs]
  | some n =>
    nth_rewrite 1 [← withLimit_eq_self hs]
    rw [read_limited]
    exact List.take_sublist n _

theorem relations_subset {r : Relation} (h : r ∈ row.relations s) :
    r ∈ row.relations (s.withLimit none) :=
  relations_sublist.subset h

theorem mem_relations_unlimited {r : Relation} :
    r ∈ row.relations (s.withLimit none) ↔ ∃ c val, (c, val) ∈ row.toList ∧ s.contains c = true ∧
      Relation.ofStoredBytes val = .ok r := by
  simp only [relations, List.mem_filterMap, mem_read_unlimited]
  constructor
  · rintro ⟨e, ⟨hm, hc⟩, hr⟩
    exact ⟨e.column, e.value, hm, hc, Outcome.eq_ok_of_toOption hr⟩
  · rintro ⟨c, val, hm, hc, hr⟩
    refine ⟨⟨c, val⟩, ⟨hm, hc⟩, ?_⟩
    rw [hr]
    rfl

/-- What holds of any two relations whose columns stand in this order holds all along a slice. -/
theorem pairwise_relations {P : Relation → Relation → Prop}
    (h : ∀ a ∈ row.toList, ∀ b ∈ row.toList, s.contains a.1 = true → s.contains b.1 = true →
      compare a.1 b.1 = .lt → ∀ x y, Relation.ofStoredBytes a.2 = .ok x →
        Relation.ofStoredBytes b.2 = .ok y → P x y) :
    (row.relations (s.withLimit none)).Pairwise P := by
  unfold relations
  rw [List.pairwise_filterMap]
  simp only [read, Slice.withLimit, List.pairwise_map]
  refine (row.increasing.filter _).imp_of_mem fun {a b} ha hb hlt x hx y hy => ?_
  obtain ⟨ha, hca⟩ := List.mem_filter.mp ha
  obtain ⟨hb, hcb⟩ := List.mem_filter.mp hb
  exact h a ha b hb hca hcb hlt x y (Outcome.eq_ok_of_toOption hx) (Outcome.eq_ok_of_toOption hy)

theorem mapM_read (h : row.Readable) (s : Slice) :
    (row.read s).mapM (fun e => Relation.ofStoredBytes e.value) = .ok (row.relations s) := by
  have hall : ∀ e ∈ row.read s, ∃ r, Relation.ofStoredBytes e.value = .ok r :=
    fun e he => h _ (mem_of_mem_read he)
  obtain ⟨found, hfound⟩ := Outcome.exists_mapM hall
  rw [hfound, Outcome.eq_filterMap_of_mapM hfound, relations]

/-- The row holds these relations under these columns, in this order. -/
def Decodes (row : Row) (held : List (Bytes × Relation)) : Prop :=
  row.toList.map (fun b => (b.1, (Relation.ofStoredBytes b.2).toOption)) =
    held.map fun x => (x.1, some x.2)

instance (row : Row) (held : List (Bytes × Relation)) : Decidable (row.Decodes held) :=
  inferInstanceAs (Decidable (_ = _))

/-- What a row holds, all of which decodes. -/
structure Held (row : Row) where
  cells : List (Bytes × Relation)
  decodes : row.Decodes cells

theorem Decodes.exists_held {held : List (Bytes × Relation)} (h : row.Decodes held) {b : Bytes × Bytes}
    (hb : b ∈ row.toList) : ∃ x ∈ held, Relation.ofStoredBytes b.2 = .ok x.2 := by
  have hmem := List.mem_map_of_mem (f := fun b => (b.1, (Relation.ofStoredBytes b.2).toOption)) hb
  rw [h] at hmem
  obtain ⟨x, hx, he⟩ := List.mem_map.mp hmem
  exact ⟨x, hx, Outcome.eq_ok_of_toOption (Prod.mk.inj he).2.symm⟩

theorem Decodes.readable {held : List (Bytes × Relation)} (h : row.Decodes held) : row.Readable := by
  intro b hb
  obtain ⟨x, -, hx⟩ := h.exists_held hb
  exact ⟨x.2, hx⟩

theorem Decodes.size_eq {held : List (Bytes × Relation)} (h : row.Decodes held) :
    row.size = held.length := by
  have hlen := congrArg List.length h
  rwa [List.length_map, List.length_map] at hlen

/-- A slice of such a row holds the relations whose columns are in it. -/
theorem Decodes.relations {held : List (Bytes × Relation)} (h : row.Decodes held) (s : Slice) :
    row.relations (s.withLimit none) = (held.filter fun x => s.contains x.1).map (·.2) := by
  let pick (p : Bytes × Option Relation) : Option Relation := if s.contains p.1 then p.2 else none
  calc row.relations (s.withLimit none)
      = (row.toList.map fun b => (b.1, (Relation.ofStoredBytes b.2).toOption)).filterMap pick := by
        simp only [Row.relations, read, Slice.withLimit, List.filterMap_map, List.filterMap_filter]
        rfl
    _ = (held.map fun x => (x.1, some x.2)).filterMap pick := by rw [h]
    _ = (held.filter fun x => s.contains x.1).map (·.2) := by
        rw [List.filterMap_map, ← List.filterMap_eq_map, List.filterMap_filter]
        rfl

theorem filterMap_take {α β : Type} {f : α → Option β} {xs : List α} (h : ∀ x ∈ xs, (f x).isSome)
    (n : Nat) : (xs.take n).filterMap f = (xs.filterMap f).take n := by
  induction xs generalizing n with
  | nil => simp
  | cons x xs ih =>
    obtain ⟨y, hy⟩ := Option.isSome_iff_exists.mp (h x List.mem_cons_self)
    cases n with
    | zero => simp
    | succ n =>
      rw [List.take_succ_cons, List.filterMap_cons, hy, List.filterMap_cons, hy, List.take_succ_cons,
        ih fun z hz => h z (List.mem_cons_of_mem _ hz)]

/-- A limit cuts the relations of a slice of a readable row. -/
theorem relations_limited (h : row.Readable) (n : Nat) :
    row.relations (s.withLimit (some n)) = (row.relations (s.withLimit none)).take n := by
  unfold relations
  rw [read_limited]
  refine filterMap_take (fun e he => ?_) n
  obtain ⟨r, hr⟩ := h _ (mem_of_mem_read he)
  rw [hr]
  rfl

theorem length_relations_le (row : Row) (s : Slice) :
    (row.relations (s.withLimit none)).length ≤ row.size := by
  unfold relations
  refine Nat.le_trans (List.length_filterMap_le ..) ?_
  simp only [Row.read, Slice.withLimit, List.length_map]
  exact List.length_filter_le ..

end Row

/-! ## Reading through a graph transaction -/

/-- The transaction can read from memory: it has not ended and allows time for reading. -/
structure GraphTx.CanRead (g : GraphTx StoreHandle TxHandle) : Prop where
  isOpen : g.tx.isSome
  patient : g.settings.retry.readWaitMillis ≠ 0

/-- The row of a vertex in the store of a transaction. -/
def GraphTx.rowAt (g : GraphTx StoreHandle TxHandle) (memory : Memory) (v : VertexId) : Row :=
  (memory.table g.store.number).row (rowKey v)

variable {g : GraphTx StoreHandle TxHandle} {memory : Memory}

/-- A transaction reads the relations of a slice, and the memory stays as it is. -/
theorem GraphTx.readSlice_yields (hg : g.CanRead) (features : Features) {v : VertexId}
    (hrow : (g.rowAt memory v).Readable) (slice : Slice) :
    (g.readSlice (Local.backend features) v slice).Yields (fun s => s.memory = memory)
      (· = (g.rowAt memory v).relations slice) := by
  obtain ⟨tx, htx⟩ := Option.isSome_iff_exists.mp hg.isOpen
  have hopen : g.openTx = .ok tx := by
    unfold openTx
    rw [htx]
  have hbudget (draw : Nat → Binary64) :
      (g.operation "get_slice" g.settings.retry.readWaitMillis draw : Operation Local).budget ≠ 0 :=
    Nat.mul_ne_zero hg.patient (by decide)
  rintro s rfl
  have hread : ((Local.backend features).read g.store (rowKey v) slice tx).exec s
      = (.ok ((g.rowAt s.memory v).read slice), s) := rfl
  refine ⟨_, count Metrics.countSlice s, ?_, rfl, rfl⟩
  unfold readSlice
  rw [Act.exec_bind_ok (by rw [Act.exec_ofOutcome, hopen]), Act.exec_bind_ok (Act.exec_asks ..),
    Act.exec_bind_ok (Operation.run_ok (hbudget _) hread), Act.exec_bind_ok (Act.exec_update ..),
    Act.exec_ofOutcome, Row.mapM_read hrow slice]

/-- If a transaction can read a slice, it reads all that decodes from the entries of the slice. -/
theorem GraphTx.readSlice_exact (g : GraphTx StoreHandle TxHandle) (features : Features) (v : VertexId)
    (slice : Slice) : (g.readSlice (Local.backend features) v slice).Ensures (fun s => s.memory = memory)
      (· = (g.rowAt memory v).relations slice) := by
  unfold readSlice
  refine .bind (P := fun _ => True) (Act.ensures_ofOutcome fun _ _ => trivial) fun tx _ => ?_
  refine (Act.ensures_asks _).bind fun draw _ => ?_
  refine .bind (P := (· = (g.rowAt memory v).read slice)) ?_ fun entries hentries => ?_
  · rintro s rfl
    have hread : ((Local.backend features).read g.store (rowKey v) slice tx).exec s
        = (.ok ((g.rowAt s.memory v).read slice), s) := rfl
    by_cases hb : (g.operation "get_slice" g.settings.retry.readWaitMillis draw : Operation Local).budget = 0
    · rw [Operation.run_without_budget hb]
      exact ⟨rfl, fun _ h => by cases h⟩
    · rw [Operation.run_ok hb hread]
      exact ⟨rfl, fun _ h => (Except.ok.inj h).symm⟩
  · subst hentries
    exact (Act.ensures_update fun _ hs => hs).bind fun _ _ =>
      Act.ensures_ofOutcome fun _ hfound => Outcome.eq_filterMap_of_mapM hfound

/-- Whatever a transaction reads in a slice decodes from the entries of the slice. -/
theorem GraphTx.readSlice_ensures (g : GraphTx StoreHandle TxHandle) (features : Features) (v : VertexId)
    (slice : Slice) : (g.readSlice (Local.backend features) v slice).Ensures (fun s => s.memory = memory)
      fun found => ∀ r ∈ found, r ∈ (g.rowAt memory v).relations (slice.withLimit none) :=
  (g.readSlice_exact features v slice).mono fun _ hfound _ hr => Row.relations_subset (hfound ▸ hr)

/-- A new transaction on a store in which another one has committed relations. -/
def GraphTx.openAfter (schema : Schema) (relations : List Relation) :
    Act Local (GraphTx StoreHandle TxHandle) := do
  let b := Local.backend Memory.defaultFeatures
  let writer ← GraphTx.start b "edgestore" .steady
  Act.of fun s =>
    let done := (GraphTx.commit b schema).exec (relations.foldl GraphTx.add writer, s)
    (done.1, done.2.2)
  GraphTx.start b "edgestore" .steady

/-! ## Committed relations -/

/-- A relation has the category of its type, and its values are of the kinds of their keys. -/
structure Relation.Fits (schema : Schema) (r : Relation) (base : RelationType) : Prop where
  typed : schema.type? r.typeId = some base
  category : r.isEdge = base.isEdgeLabel
  own : ∀ w, r.value = some w → base.keyKind? = some w.kind
  properties : ∀ key w, r.properties.get? key = some w →
    ∀ t ∈ schema.types, t.id = key → t.keyKind? = some w.kind

/-- The relation seen from any of its vertices has no value but of the kind that its key declares. -/
theorem kindsFit_of_fits {schema : Schema} {r : Relation} {base : RelationType} (hs : schema.Sound)
    (h : r.Fits schema base) (v : VertexId) : r.KindsFit schema v := by
  intro t ht w hw
  unfold Relation.valueOf at hw
  have himplicit (k : ImplicitKey) (hk : ImplicitKey.ofTypeId? t.id = some k)
      (hkind : w.kind = k.dataKind) : t.keyKind? = some w.kind := by
    rw [(hs.types t ht).implicitKind k hk, hkind]
  split at hw
  · rename_i hk
    obtain rfl := Option.some.inj hw
    exact himplicit _ hk rfl
  · rename_i hk
    obtain rfl := Option.some.inj hw
    exact himplicit _ hk rfl
  · rename_i hk
    obtain ⟨u, -, rfl⟩ := Option.map_eq_some_iff.mp hw
    exact himplicit _ hk rfl
  · split at hw
    · rename_i he
      have hb := h.typed
      rw [← he, hs.type?_eq ht] at hb
      obtain rfl := Option.some.inj hb
      exact h.own w hw
    · exact h.properties _ w hw t ht rfl

/-- That a relation fits is checked by going through its properties. -/
theorem Relation.fits_of_check {schema : Schema} {r : Relation} {base : RelationType}
    (htyped : schema.type? r.typeId = some base) (hcategory : r.isEdge = base.isEdgeLabel)
    (hown : ∀ w ∈ r.value, base.keyKind? = some w.kind)
    (hproperties : ∀ p ∈ r.properties.toList, ∀ t ∈ schema.types, t.id = p.1 →
      t.keyKind? = some p.2.kind) : r.Fits schema base :=
  ⟨htyped, hcategory, hown, fun key w hw => hproperties (key, w) (SortedMap.mem_toList_iff.mpr hw)⟩

/-- The table holds the entries of the relations and nothing else. -/
structure Holds (schema : Schema) (relations : List Relation) (table : Table) : Prop where
  entries : ∀ x, x ∈ table.entries ↔ ∃ r ∈ relations, ∃ es, entriesFor schema r = .ok es ∧ x ∈ es
  writable : ∀ r ∈ relations, ∃ es, entriesFor schema r = .ok es

/-- The cells of a row are the places of the relations. -/
theorem Holds.mem_row {schema : Schema} {relations : List Relation} {table : Table}
    (h : Holds schema relations table) {key column value : Bytes} :
    (column, value) ∈ (table.row key).toList ↔ ∃ r ∈ relations, value = r.storedBytes ∧
      ∃ v base t d, key = rowKey v ∧ Placed schema r v base t d column := by
  rw [← Table.mem_entries, h.entries]
  refine exists_congr fun r => and_congr_right fun hr => ?_
  obtain ⟨es, hes⟩ := h.writable r hr
  constructor
  · rintro ⟨es', hes', hm⟩
    exact (Layout.mem_entriesFor hes').mp hm
  · intro hplaces
    exact ⟨es, hes, (Layout.mem_entriesFor hes).mpr hplaces⟩

/-- The table holds the entries of the relations and nothing else.  The relations fit their types, which
are no indexes, and what is stored of a relation reads back as no other one. -/
structure Stored (schema : Schema) (relations : List Relation) (table : Table) : Prop where
  entries : ∀ x, x ∈ table.entries ↔ ∃ r ∈ relations, ∃ es, entriesFor schema r = .ok es ∧ x ∈ es
  writable : ∀ r ∈ relations, ∃ es, entriesFor schema r = .ok es
  fits : ∀ r ∈ relations, ∃ base, r.Fits schema base ∧ base.isIndex = false
  faithful : ∀ r ∈ relations, ∀ r', Relation.ofStoredBytes r.storedBytes = .ok r' → r' = r

/-- The stored relations have ids of their own and read back. -/
structure Committed (schema : Schema) (relations : List Relation) (table : Table) : Prop extends
    Stored schema relations table where
  readable : ∀ r ∈ relations, Relation.ofStoredBytes r.storedBytes = .ok r
  ids : ∀ r ∈ relations, ∀ r' ∈ relations, r.id = r'.id → r = r'

variable {schema : Schema} {relations : List Relation} {table : Table} {v : VertexId}

namespace Stored

theorem holds (h : Stored schema relations table) : Holds schema relations table :=
  ⟨h.entries, h.writable⟩

theorem mem_row (h : Stored schema relations table) {c val : Bytes} :
    (c, val) ∈ (table.row (rowKey v)).toList ↔
      ∃ r ∈ relations, val = r.storedBytes ∧ ∃ base t d, Placed schema r v base t d c := by
  rw [h.holds.mem_row]
  refine exists_congr fun r => and_congr_right fun _ => and_congr_right fun _ => ?_
  constructor
  · rintro ⟨w, base, t, d, hkey, hp⟩
    obtain rfl := Layout.rowKey_inj hkey
    exact ⟨base, t, d, hp⟩
  · rintro ⟨base, t, d, hp⟩
    exact ⟨v, base, t, d, rfl, hp⟩

/-- What decodes from a slice is a relation that has a column in it. -/
theorem placed_of_mem_relations (h : Stored schema relations table) {s : Slice} {r : Relation}
    (hr : r ∈ (table.row (rowKey v)).relations (s.withLimit none)) :
    r ∈ relations ∧ ∃ base t d c, Placed schema r v base t d c ∧ s.contains c = true := by
  obtain ⟨c, val, hm, hc, hdecode⟩ := Row.mem_relations_unlimited.mp hr
  obtain ⟨r', hr', rfl, base, t, d, hp⟩ := h.mem_row.mp hm
  obtain rfl := h.faithful r' hr' r hdecode
  exact ⟨hr', base, t, d, c, hp, hc⟩

/-- The type of a relation that has a column is not an index. -/
theorem fits_of_placed (h : Stored schema relations table) {r : Relation} (hr : r ∈ relations)
    {base t : RelationType} {d : Direction} {c : Bytes} (hp : Placed schema r v base t d c) :
    r.Fits schema base ∧ base.isIndex = false := by
  obtain ⟨base', hf, hi⟩ := h.fits r hr
  obtain rfl := Option.some.inj (hf.typed.symm.trans hp.typed)
  exact ⟨hf, hi⟩

end Stored

namespace Committed

/-- The entries of a relation, none if it cannot be written. -/
def written (schema : Schema) (r : Relation) : List (Bytes × Entry) :=
  (entriesFor schema r).toOption.getD []

/-- A table is checked by going through its entries, the relations and their properties. -/
theorem of_check (hsub : ∀ x ∈ table.entries, ∃ r ∈ relations, x ∈ written schema r)
    (hsup : ∀ r ∈ relations, ∀ x ∈ written schema r, x ∈ table.entries)
    (hok : ∀ r ∈ relations, (entriesFor schema r).toOption.isSome)
    (hfits : ∀ r ∈ relations, ∃ base ∈ schema.types, schema.type? r.typeId = some base ∧
      base.isIndex = false ∧ r.isEdge = base.isEdgeLabel ∧
      (∀ w ∈ r.value, base.keyKind? = some w.kind) ∧
      ∀ p ∈ r.properties.toList, ∀ t ∈ schema.types, t.id = p.1 → t.keyKind? = some p.2.kind)
    (hread : ∀ r ∈ relations, (Relation.ofStoredBytes r.storedBytes).toOption = some r)
    (hids : ∀ r ∈ relations, ∀ r' ∈ relations, r.id = r'.id → r = r') :
    Committed schema relations table := by
  have hreadable : ∀ r ∈ relations, Relation.ofStoredBytes r.storedBytes = .ok r :=
    fun r hr => Outcome.eq_ok_of_toOption (hread r hr)
  refine ⟨⟨fun x => ?_, fun r hr => ⟨_, Outcome.eq_ok_getD (hok r hr) []⟩, fun r hr => ?_,
    fun r hr r' hr' => ?_⟩, hreadable, hids⟩
  · constructor
    · intro hx
      obtain ⟨r, hr, hm⟩ := hsub x hx
      exact ⟨r, hr, _, Outcome.eq_ok_getD (hok r hr) [], hm⟩
    · rintro ⟨r, hr, es, hes, hm⟩
      refine hsup r hr x ?_
      unfold written
      rw [hes]
      exact hm
  · obtain ⟨base, -, htyped, hindex, hcategory, hown, hprops⟩ := hfits r hr
    exact ⟨base, Relation.fits_of_check htyped hcategory hown hprops, hindex⟩
  · exact Except.ok.inj (hr'.symm.trans (hreadable r hr))

theorem readable_row (h : Committed schema relations table) : (table.row (rowKey v)).Readable := by
  rintro ⟨c, val⟩ hm
  obtain ⟨r, hr, rfl, -⟩ := h.mem_row.mp hm
  exact ⟨r, h.readable r hr⟩

/-- A slice holds the relations that have a column in it. -/
theorem mem_relations (h : Committed schema relations table) {s : Slice} {r : Relation} :
    r ∈ (table.row (rowKey v)).relations (s.withLimit none) ↔
      r ∈ relations ∧ ∃ base t d c, Placed schema r v base t d c ∧ s.contains c = true := by
  refine ⟨h.placed_of_mem_relations, ?_⟩
  rintro ⟨hr, base, t, d, c, hp, hc⟩
  exact Row.mem_relations_unlimited.mpr
    ⟨c, _, h.mem_row.mpr ⟨r, hr, rfl, base, t, d, hp⟩, hc, h.readable r hr⟩

end Committed

end RowGraph
