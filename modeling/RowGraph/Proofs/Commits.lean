import RowGraph.Proofs.LocalChanges
import RowGraph.Proofs.RowReads
import RowGraph.Proofs.StoredColumns

/-!
# Commits

A commit deletes the columns of the relations that the transaction removed and writes those of the
relations that it added.  If no two relations share a column, the store then holds the entries of the
visible relations: those that were stored and are not removed, and those that were added.

* `Holds.commit`: what a store holds after the changes of a transaction.
* `GraphTx.commit_ok`, `GraphTx.commit_cases`: a commit writes all changes, or nothing.
-/

namespace RowGraph

open Layout (entriesFor)
open Committed (written)

/-! ## What is stored -/

/-- No two of the relations have a column of a row in common. -/
def Unshared (schema : Schema) (relations : List Relation) : Prop :=
  ∀ r ∈ relations, ∀ r' ∈ relations, ∀ key column value value',
    (key, ⟨column, value⟩) ∈ written schema r → (key, ⟨column, value'⟩) ∈ written schema r' → r = r'

theorem unshared_singleton (schema : Schema) (r : Relation) : Unshared schema [r] := by
  intro a ha a' ha' _ _ _ _ _ _
  rw [List.mem_singleton.mp ha, List.mem_singleton.mp ha']

theorem written_eq {schema : Schema} {r : Relation} {es : List (Bytes × Entry)}
    (h : entriesFor schema r = .ok es) : written schema r = es := by
  unfold written
  rw [h]
  rfl

theorem mem_written {schema : Schema} {r : Relation} {x : Bytes × Entry} :
    x ∈ written schema r ↔ ∃ es, entriesFor schema r = .ok es ∧ x ∈ es := by
  cases h : entriesFor schema r with
  | error f => simp [written, h, Except.toOption]
  | ok es => simp [written_eq h]

theorem holds_nil (schema : Schema) : Holds schema [] .empty :=
  ⟨fun x => by simp [Table.entries], by simp⟩

section

variable {schema : Schema} {relations : List Relation} {table : Table} {key column value : Bytes}

theorem Table.get?_row_iff :
    (table.row key).get? column = some value ↔ (key, ⟨column, value⟩) ∈ table.entries := by
  rw [Table.mem_entries, SortedMap.mem_toList_iff]

theorem Holds.get?_iff (h : Holds schema relations table) :
    (table.row key).get? column = some value ↔
      ∃ r ∈ relations, (key, ⟨column, value⟩) ∈ written schema r := by
  simp only [Table.get?_row_iff, h.entries, mem_written]

theorem holds_of_get? (hwritable : ∀ r ∈ relations, ∃ es, entriesFor schema r = .ok es)
    (h : ∀ key column value, (table.row key).get? column = some value ↔
      ∃ r ∈ relations, (key, ⟨column, value⟩) ∈ written schema r) : Holds schema relations table where
  writable := hwritable
  entries x := by
    obtain ⟨key, column, value⟩ := x
    rw [← Table.get?_row_iff, h]
    simp only [mem_written]

end

/-! ## What a transaction writes -/

/-- The entries for the row of a key. -/
def entriesAt (key : Bytes) (entries : List (Bytes × Entry)) : List Entry :=
  (entries.filter fun e => e.1 = key).map Prod.snd

namespace GraphTx

variable {S T : Type}

/-- What a transaction does to the row of a key: it deletes the columns of what it removed and then
adds the entries of what it added. -/
def mutationAt (schema : Schema) (g : GraphTx S T) (key : Bytes) : Mutation where
  additions := entriesAt key (g.added.flatMap (written schema))
  deletions := (entriesAt key (g.removed.values.flatMap (written schema))).map Entry.column

/-- The mutations of rows that a commit writes. -/
def changes (schema : Schema) (g : GraphTx S T) : SortedMap Bytes Mutation :=
  mutateRows (mutateRows .empty (g.removed.values.flatMap (written schema)) fun m e => m.delete e.column)
    (g.added.flatMap (written schema)) Mutation.add

variable {schema : Schema} {g : GraphTx S T} {rows rows' : SortedMap Bytes Mutation}
  {f : Mutation → Entry → Mutation}

theorem getD_mutateRows (rows : SortedMap Bytes Mutation) (entries : List (Bytes × Entry))
    (f : Mutation → Entry → Mutation) (key : Bytes) :
    ((mutateRows rows entries f).get? key).getD .empty =
      (entriesAt key entries).foldl f ((rows.get? key).getD .empty) := by
  induction entries generalizing rows with
  | nil => rfl
  | cons e entries ih =>
    have hcons : mutateRows rows (e :: entries) f =
        mutateRows (rows.put e.1 (f ((rows.get? e.1).getD .empty) e.2)) entries f := rfl
    rw [hcons, ih, SortedMap.get?_put]
    unfold entriesAt
    by_cases h : e.1 = key
    · rw [if_pos h.symm, List.filter_cons_of_pos (by simpa using h), List.map_cons, List.foldl_cons, h]
      rfl
    · rw [if_neg (Ne.symm h), List.filter_cons_of_neg (by simpa using h)]

theorem foldl_delete (m : Mutation) (entries : List Entry) :
    entries.foldl (fun m e => m.delete e.column) m =
      { m with deletions := m.deletions ++ entries.map Entry.column } := by
  induction entries generalizing m with
  | nil => simp
  | cons e entries ih =>
    rw [List.foldl_cons, ih]
    simp [Mutation.delete]

theorem foldl_add (m : Mutation) (entries : List Entry) :
    entries.foldl Mutation.add m = { m with additions := m.additions ++ entries } := by
  induction entries generalizing m with
  | nil => simp
  | cons e entries ih =>
    rw [List.foldl_cons, ih]
    simp [Mutation.add]

theorem getD_changes (schema : Schema) (g : GraphTx S T) (key : Bytes) :
    ((g.changes schema).get? key).getD .empty = g.mutationAt schema key := by
  unfold changes
  rw [getD_mutateRows, getD_mutateRows, foldl_delete, foldl_add]
  rfl

theorem foldlM_mutateRows {rs : List Relation} :
    rs.foldlM (fun rows r => do
        let entries ← entriesFor schema r
        return mutateRows rows entries f) rows = .ok rows' ↔
      (∀ r ∈ rs, ∃ es, entriesFor schema r = .ok es) ∧
        rows' = mutateRows rows (rs.flatMap (written schema)) f := by
  induction rs generalizing rows with
  | nil =>
    simp only [List.foldlM_nil, List.not_mem_nil, false_implies, implies_true, true_and]
    exact ⟨fun h => (Except.ok.inj h).symm, fun h => by rw [h]; rfl⟩
  | cons r rs ih =>
    rw [List.foldlM_cons, Outcome.bind_eq_ok, List.forall_mem_cons, List.flatMap_cons]
    constructor
    · rintro ⟨next, hnext, hrest⟩
      obtain ⟨es, hes, hmade⟩ := Outcome.bind_eq_ok.mp hnext
      obtain rfl := Except.ok.inj hmade
      obtain ⟨hall, rfl⟩ := ih.mp hrest
      refine ⟨⟨⟨es, hes⟩, hall⟩, ?_⟩
      rw [written_eq hes]
      exact (List.foldl_append ..).symm
    · rintro ⟨⟨⟨es, hes⟩, hall⟩, rfl⟩
      refine ⟨mutateRows rows es f, Outcome.bind_eq_ok.mpr ⟨es, hes, rfl⟩, ih.mpr ⟨hall, ?_⟩⟩
      rw [written_eq hes]
      exact List.foldl_append ..

/-- The batch of a transaction can be made if all relations can be written, and is its changes. -/
theorem batch_eq_ok {batch : Batch} : g.batch schema = .ok batch ↔
    (∀ r ∈ g.removed.values, ∃ es, entriesFor schema r = .ok es) ∧
      (∀ r ∈ g.added, ∃ es, entriesFor schema r = .ok es) ∧
      batch = if (g.changes schema).isEmpty then .empty
        else SortedMap.empty.put g.storeName ((g.changes schema).mapValues Mutation.consolidate) := by
  unfold GraphTx.batch
  simp only [Outcome.bind_eq_ok, foldlM_mutateRows]
  constructor
  · rintro ⟨_, ⟨hremoved, rfl⟩, _, ⟨hadded, rfl⟩, hbatch⟩
    refine ⟨hremoved, hadded, ?_⟩
    change (if (g.changes schema).isEmpty then _ else _) = _ at hbatch
    by_cases hempty : (g.changes schema).isEmpty = true
    · rw [if_pos hempty] at hbatch ⊢
      exact (Except.ok.inj hbatch).symm
    · rw [if_neg hempty] at hbatch ⊢
      exact (Except.ok.inj hbatch).symm
  · rintro ⟨hremoved, hadded, rfl⟩
    refine ⟨_, ⟨hremoved, rfl⟩, _, ⟨hadded, rfl⟩, ?_⟩
    change (if (g.changes schema).isEmpty then _ else _) = _
    split <;> rfl

/-- What the batch of a transaction does to the rows of its store. -/
theorem row_mutateMany {m : Memory} (h : m.Sound) {batch : Batch} (hbatch : g.batch schema = .ok batch)
    (key column : Bytes) :
    (((m.mutateMany batch).contents g.storeName).row key).get? column =
      ((g.mutationAt schema key).applyTo ((m.contents g.storeName).row key)).get? column := by
  rw [← getD_changes, Memory.row_mutateMany h]
  unfold Batch.mutation
  obtain ⟨-, -, rfl⟩ := batch_eq_ok.mp hbatch
  split
  · rename_i hempty
    rw [SortedMap.eq_empty_of_isEmpty hempty]
    rfl
  · rw [SortedMap.get?_put_self, Option.getD_some, SortedMap.get?_mapValues]
    cases (g.changes schema).get? key with
    | none => rfl
    | some mutation => exact Mutation.get?_consolidate ..

end GraphTx

/-! ## What is stored after a commit -/

section

variable {S T : Type} {schema : Schema} {g : GraphTx S T} {stored : List Relation} {table table' : Table}
  {key column value : Bytes}

theorem mem_entriesAt {es : List (Bytes × Entry)} {e : Entry} : e ∈ entriesAt key es ↔ (key, e) ∈ es := by
  simp [entriesAt, and_comm]

theorem GraphTx.mem_additions {e : Entry} : e ∈ (g.mutationAt schema key).additions ↔
    ∃ r ∈ g.added, (key, e) ∈ written schema r := by
  simp [GraphTx.mutationAt, mem_entriesAt]

theorem GraphTx.mem_deletions : column ∈ (g.mutationAt schema key).deletions ↔
    ∃ id r value, g.removed.get? id = some r ∧ (key, ⟨column, value⟩) ∈ written schema r := by
  simp only [GraphTx.mutationAt, List.mem_map, mem_entriesAt, List.mem_flatMap, SortedMap.mem_values_iff]
  constructor
  · rintro ⟨⟨_, value⟩, ⟨r, ⟨id, hr⟩, hm⟩, rfl⟩
    exact ⟨id, r, value, hr, hm⟩
  · rintro ⟨id, r, value, hr, hm⟩
    exact ⟨⟨column, value⟩, ⟨r, ⟨id, hr⟩, hm⟩, rfl⟩

/-- What is added last to a column is an entry of an added relation. -/
theorem GraphTx.added_of_lastAdditions
    (h : (g.mutationAt schema key).lastAdditions.get? column = some value) :
    ∃ r ∈ g.added, (key, ⟨column, value⟩) ∈ written schema r := by
  rw [Mutation.get?_lastAdditions, Option.map_eq_some_iff] at h
  obtain ⟨e, hfind, rfl⟩ := h
  have hcolumn := List.find?_some hfind
  simp only [decide_eq_true_eq] at hcolumn
  subst hcolumn
  exact GraphTx.mem_additions.mp (List.mem_reverse.mp (List.mem_of_find?_eq_some hfind))

/-- A column that no added relation has is not added. -/
theorem GraphTx.lastAdditions_eq_none
    (h : (g.mutationAt schema key).lastAdditions.get? column = none) {r : Relation} (hr : r ∈ g.added) :
    (key, ⟨column, value⟩) ∉ written schema r := by
  rw [Mutation.get?_lastAdditions, Option.map_eq_none_iff, List.find?_eq_none] at h
  intro hm
  have hne := h ⟨column, value⟩ (List.mem_reverse.mpr (GraphTx.mem_additions.mpr ⟨r, hr, hm⟩))
  simp at hne

theorem value_of_written {r : Relation} (h : (key, ⟨column, value⟩) ∈ written schema r) :
    value = r.storedBytes := by
  obtain ⟨es, hes, hm⟩ := mem_written.mp h
  exact ((Layout.mem_entriesFor hes).mp hm).1

/-- After the deletions a column holds what it held for a relation that is not removed. -/
theorem Holds.get?_of_not_deleted (h : Holds schema stored table) (hunshared : Unshared schema stored)
    (hids : ∀ r ∈ stored, ∀ r' ∈ stored, r.id = r'.id → r = r')
    (hremoved : ∀ id r, g.removed.get? id = some r → r ∈ stored ∧ r.id = id) :
    (if column ∈ (g.mutationAt schema key).deletions then none else (table.row key).get? column) =
        some value ↔
      ∃ r ∈ stored, g.isRemoved r.id = false ∧ (key, ⟨column, value⟩) ∈ written schema r := by
  rw [Option.ite_none_left_eq_some, h.get?_iff]
  constructor
  · rintro ⟨hnot, r, hr, hm⟩
    refine ⟨r, hr, ?_, hm⟩
    -- the column of a removed relation would have been deleted
    by_contra hgone
    obtain ⟨r', hr'⟩ : ∃ r', g.removed.get? r.id = some r' :=
      Option.isSome_iff_exists.mp (Bool.not_eq_false _ ▸ hgone)
    obtain ⟨hmem, hid⟩ := hremoved _ _ hr'
    obtain rfl := hids r' hmem r hr hid
    exact hnot (GraphTx.mem_deletions.mpr ⟨_, r', value, hr', hm⟩)
  · rintro ⟨r, hr, hkept, hm⟩
    refine ⟨fun hdeleted => ?_, r, hr, hm⟩
    -- the deleted column is that of another stored relation
    obtain ⟨id, r', value', hr', hm'⟩ := GraphTx.mem_deletions.mp hdeleted
    obtain ⟨hmem, rfl⟩ := hremoved _ _ hr'
    obtain rfl := hunshared r hr r' hmem _ _ _ _ hm hm'
    rw [GraphTx.isRemoved, SortedMap.contains, hr'] at hkept
    cases hkept

/-- After a commit the store holds the entries of the visible relations, if no two of them share a
column and no two did that were stored. -/
theorem Holds.commit (h : Holds schema stored table) (hunshared : Unshared schema stored)
    (hids : ∀ r ∈ stored, ∀ r' ∈ stored, r.id = r'.id → r = r')
    (hremoved : ∀ id r, g.removed.get? id = some r → r ∈ stored ∧ r.id = id)
    (hadded : ∀ r ∈ g.added, ∃ es, entriesFor schema r = .ok es)
    (hvisible : Unshared schema (g.visible stored))
    (hrow : ∀ key column, (table'.row key).get? column =
      ((g.mutationAt schema key).applyTo (table.row key)).get? column) :
    Holds schema (g.visible stored) table' := by
  refine holds_of_get? (fun r hr => ?_) fun key column value => ?_
  · obtain ⟨hr, -⟩ | hr := GraphTx.mem_visible.mp hr
    · exact h.writable r hr
    · exact hadded r hr
  rw [hrow, Mutation.get?_applyTo_eq]
  cases hlast : (g.mutationAt schema key).lastAdditions.get? column with
  | some last =>
    obtain ⟨a, ha, hma⟩ := GraphTx.added_of_lastAdditions hlast
    have ha : a ∈ g.visible stored := GraphTx.mem_visible.mpr (.inr ha)
    rw [Option.some_or, Option.some.injEq]
    constructor
    · rintro rfl
      exact ⟨a, ha, hma⟩
    · rintro ⟨r, hr, hm⟩
      obtain rfl := hvisible r hr a ha _ _ _ _ hm hma
      rw [value_of_written hm, value_of_written hma]
  | none =>
    rw [Option.none_or, h.get?_of_not_deleted hunshared hids hremoved]
    constructor
    · rintro ⟨r, hr, hkept, hm⟩
      exact ⟨r, GraphTx.mem_visible.mpr (.inl ⟨hr, hkept⟩), hm⟩
    · rintro ⟨r, hr, hm⟩
      obtain ⟨hr, hkept⟩ | hr := GraphTx.mem_visible.mp hr
      · exact ⟨r, hr, hkept, hm⟩
      · exact absurd hm (GraphTx.lastAdditions_eq_none hlast hr)

end

/-! ## Over memory -/

namespace Memory

theorem contents_of_open {m : Memory} {name : String} {n : Nat} (h : m.stores.get? name = some n) :
    m.contents name = m.table n := by
  unfold contents
  rw [h]

theorem record_eq {m m' : Memory} (h : m'.transactions = m.transactions) (t : TxHandle) :
    m'.record t = m.record t := by
  unfold record
  rw [h]

/-- The end of a transaction changes nothing that is stored. -/
theorem endTx_keeps {m : Memory} (h : m.Sound) (t : TxHandle) :
    (m.endTx t).2.Sound ∧ (m.endTx t).2.stores = m.stores ∧
      ∀ name, (m.endTx t).2.contents name = m.contents name := by
  unfold endTx
  dsimp only
  split
  · exact ⟨h, rfl, fun _ => rfl⟩
  · exact ⟨⟨h.opened, h.apart, h.blank⟩, rfl, fun _ => rfl⟩

end Memory

namespace GraphTx

variable {schema : Schema} {features : Features} {g : GraphTx StoreHandle TxHandle} {s : Local}

/-- The store of the transaction is open under its name, and its transaction of the backend has not
ended, as it is from the start to the end of a transaction. -/
structure Live (g : GraphTx StoreHandle TxHandle) (m : Memory) : Prop where
  sound : m.Sound
  store : m.stores.get? g.storeName = some g.store.number
  running : ∀ tx, g.tx = some tx → (m.record tx).ended = false

theorem openTx_eq_ok {tx : TxHandle} : g.openTx = .ok tx ↔ g.tx = some tx := by
  unfold openTx
  cases g.tx <;> simp

/-- The transaction that starts on the store with a name. -/
def fresh (m : Memory) (name : String) (settings : Settings) : GraphTx StoreHandle TxHandle where
  store := (m.store name).1
  storeName := name
  tx := some ⟨(m.store name).2.begun + 1⟩
  settings := settings
  added := []
  removed := .empty
  modified := .empty
  partitions := .empty
  localPartitions := none
  labels := .empty

theorem start_ok (features : Features) {settings : Settings} (h : settings.validate = .ok ())
    (name : String) (s : Local) :
    (start (Local.backend features) name settings).exec s =
      (.ok (fresh s.memory name settings),
        { s with memory := ((s.memory.store name).2.beginTx .none).2 }) := by
  unfold start
  rw [Act.exec_bind_ok (by rw [Act.exec_ofOutcome, h])]
  rfl

theorem start_error {settings : Settings} {f : Failure} (h : settings.validate = .error f) (name : String)
    (s : Local) : (start (Local.backend features) name settings).exec s = (.error f, s) := by
  unfold start
  rw [Act.exec_bind_error (by rw [Act.exec_ofOutcome, h])]

theorem live_fresh {m : Memory} (h : m.Sound) (name : String) (settings : Settings) :
    (fresh m name settings).Live ((m.store name).2.beginTx .none).2 where
  sound :=
    have hopened := (Memory.writes_store h name).sound
    ⟨hopened.opened, hopened.apart, hopened.blank⟩
  store := Memory.get?_stores_store m name
  running tx htx := by
    obtain rfl := Option.some.inj htx
    unfold Memory.record Memory.beginTx
    dsimp only
    rw [SortedMap.get?_put, if_pos rfl]
    rfl

/-- What is added or removed does not matter for the store and the transaction of the backend. -/
theorem Live.of_eq {m : Memory} (h : g.Live m) {g' : GraphTx StoreHandle TxHandle}
    (hstore : g'.store = g.store) (hname : g'.storeName = g.storeName) (htx : g'.tx = g.tx) :
    g'.Live m where
  sound := h.sound
  store := by rw [hname, hstore, h.store]
  running tx := by
    rw [htx]
    exact h.running tx

theorem Live.add {m : Memory} (h : g.Live m) (r : Relation) : (g.add r).Live m := h.of_eq rfl rfl rfl

theorem Live.remove {m : Memory} (h : g.Live m) (r : Relation) : (g.remove r).Live m := by
  unfold GraphTx.remove
  dsimp only
  split <;> exact h.of_eq rfl rfl rfl

/-- After its end a transaction is live, since there is nothing left of it that could end. -/
theorem Live.ended {m m' : Memory} (h : g.Live m) (hsound : m'.Sound)
    (hstores : ∀ name n, m.stores.get? name = some n → m'.stores.get? name = some n) :
    g.ended.Live m' where
  sound := hsound
  store := hstores _ _ h.store
  running tx htx := by cases htx

theorem exec_below {α : Type} {act : Act Local α} {o : Outcome α} {s' : Local} (he : act.exec s = (o, s'))
    (g : GraphTx StoreHandle TxHandle) :
    (below act : Act (GraphTx StoreHandle TxHandle × Local) α).exec (g, s) = (o, (g, s')) := by
  unfold below
  rw [Act.exec_on, he]

/-- Without an open transaction or a batch a commit does nothing. -/
theorem commit_error {f : Failure}
    (h : g.openTx = .error f ∨ (∃ tx, g.openTx = .ok tx) ∧ g.batch schema = .error f) :
    (commit (Local.backend features) schema).exec (g, s) = (.error f, (g, s)) := by
  unfold commit
  refine (Act.exec_bind_ok (Act.exec_asks ..) _).trans ?_
  obtain hclosed | ⟨⟨tx, hopen⟩, hbatch⟩ := h
  · exact Act.exec_bind_error (by rw [Act.exec_ofOutcome, hclosed]) _
  · refine (Act.exec_bind_ok (by rw [Act.exec_ofOutcome, hopen]) _).trans ?_
    exact Act.exec_bind_error (by rw [Act.exec_ofOutcome, hbatch]) _

/-- With both a commit writes the batch and ends the transaction of the backend. -/
theorem commit_eq {tx : TxHandle} (hopen : g.openTx = .ok tx) {batch : Batch}
    (hbatch : g.batch schema = .ok batch) :
    (commit (Local.backend features) schema).exec (g, s) = (do
      if !batch.isEmpty then
        let draw ← below (Act.asks (Local.backend features).draw)
        below ((g.operation "mutate" g.settings.retry.writeWaitMillis draw).run
          ((Local.backend features).mutateMany batch tx))
      below ((Local.backend features).commit tx)
      Act.update fun p => (g.ended, p.2) : Act (GraphTx StoreHandle TxHandle × Local) Unit).exec (g, s) := by
  unfold commit
  refine (Act.exec_bind_ok (Act.exec_asks ..) _).trans ?_
  refine (Act.exec_bind_ok (by rw [Act.exec_ofOutcome, hopen]) _).trans ?_
  exact Act.exec_bind_ok (by rw [Act.exec_ofOutcome, hbatch]) _

/-- A commit of a transaction that can write its batch writes it and ends. -/
theorem commit_ok (hsound : s.memory.Sound) {tx : TxHandle} (hopen : g.openTx = .ok tx)
    (hrunning : (s.memory.record tx).ended = false) {batch : Batch} (hbatch : g.batch schema = .ok batch)
    (hpatient : batch.isEmpty = false → g.settings.retry.writeWaitMillis ≠ 0) :
    (commit (Local.backend features) schema).exec (g, s) =
      (.ok (), (g.ended, { s with memory := (s.memory.mutateMany batch).closed tx })) := by
  have hend (m : Memory) (htransactions : m.transactions = s.memory.transactions) :
      ((Local.backend features).commit tx).exec { s with memory := m } =
        (.ok (), { s with memory := m.closed tx }) := by
    have hrunning : (m.record tx).ended = false := by
      rw [Memory.record_eq htransactions]
      exact hrunning
    change ((m.endTx tx).1, ({ s with memory := (m.endTx tx).2 } : Local)) = _
    rw [Memory.endTx_eq hrunning]
  rw [commit_eq hopen hbatch]
  by_cases hempty : batch.isEmpty = true
  · obtain rfl := SortedMap.eq_empty_of_isEmpty hempty
    exact Act.exec_bind_ok (exec_below (hend s.memory rfl) g) _
  · have hempty := Bool.eq_false_iff.mpr hempty
    have hbudget (draw : Nat → Binary64) :
        (g.operation "mutate" g.settings.retry.writeWaitMillis draw : Operation Local).budget ≠ 0 :=
      Nat.mul_ne_zero (hpatient hempty) (by decide)
    have hmutate : ((Local.backend features).mutateMany batch tx).exec s =
        (.ok (), { s with memory := s.memory.mutateMany batch }) := rfl
    rw [hempty]
    refine (Act.exec_bind_ok (exec_below (Act.exec_asks ..) g) _).trans ?_
    refine (Act.exec_bind_ok (exec_below (Operation.run_ok (hbudget _) hmutate) g) _).trans ?_
    exact Act.exec_bind_ok
      (exec_below (hend _ (Memory.writes_mutateMany hsound batch).transactions) g) _

/-- A commit writes all changes and ends the transaction, or fails and does nothing. -/
theorem commit_cases (features : Features) (schema : Schema) (h : g.Live s.memory) :
    (∃ f, (commit (Local.backend features) schema).exec (g, s) = (.error f, (g, s))) ∨
      ∃ tx batch, g.batch schema = .ok batch ∧
        (commit (Local.backend features) schema).exec (g, s) =
          (.ok (), (g.ended, { s with memory := (s.memory.mutateMany batch).closed tx })) := by
  cases hopen : g.openTx with
  | error f => exact .inl ⟨f, commit_error (.inl hopen)⟩
  | ok tx =>
    cases hbatch : g.batch schema with
    | error f => exact .inl ⟨f, commit_error (.inr ⟨⟨tx, hopen⟩, hbatch⟩)⟩
    | ok batch =>
      by_cases hpatient : batch.isEmpty = false → g.settings.retry.writeWaitMillis ≠ 0
      · exact .inr ⟨tx, batch, rfl,
          commit_ok h.sound hopen (h.running tx (openTx_eq_ok.mp hopen)) hbatch hpatient⟩
      · obtain ⟨hempty, hzero⟩ := Classical.not_imp.mp hpatient
        have hbudget (draw : Nat → Binary64) :
            (g.operation "mutate" g.settings.retry.writeWaitMillis draw : Operation Local).budget = 0 := by
          unfold operation
          rw [not_not.mp hzero]
          rfl
        refine .inl ⟨.invalid "total wait time must be positive", ?_⟩
        rw [commit_eq hopen hbatch, hempty]
        refine (Act.exec_bind_ok (exec_below (Act.exec_asks ..) g) _).trans ?_
        exact Act.exec_bind_error (exec_below (Operation.run_without_budget (hbudget _) _ s) g) _

/-- A rollback ends the transaction and stores nothing. -/
theorem rollback_cases (features : Features) (g : GraphTx StoreHandle TxHandle) (s : Local) :
    (∃ f, (rollback (Local.backend features)).exec (g, s) = (.error f, (g, s))) ∨
      ∃ o tx, (rollback (Local.backend features)).exec (g, s) =
        (o, (g.ended, { s with memory := (s.memory.endTx tx).2 })) := by
  unfold rollback
  rw [Act.exec_bind_ok (Act.exec_asks ..)]
  cases g.openTx with
  | error f => exact .inl ⟨f, Act.exec_bind_error (Act.exec_ofOutcome ..) _⟩
  | ok tx =>
    refine .inr ⟨(s.memory.endTx tx).1, tx, ?_⟩
    refine (Act.exec_bind_ok (Act.exec_ofOutcome ..) _).trans ?_
    exact Act.exec_bind_ok (Act.exec_update ..) _

end GraphTx

end RowGraph
