import RowGraph.Proofs.MutatedRows
import RowGraph.Storage.Joint
import RowGraph.Storage.Memory

/-!
# Columns in memory

`Memory.holds` is what one column of the store with a name holds.  Reading the slice of the column
finds just that (`Row.find_columnSlice`), opening a store changes nothing of it (`writes_store`), and a
mutation changes the columns it names and no other (`writes_mutate`, `writes_mutateMany`).  A batch leaves in
every row what its mutation of the row makes of it (`row_mutateMany`).

All of this rests on `Memory.Sound`: no two open stores are one, and stores yet to be opened are empty.
-/

namespace RowGraph

theorem lawfulEqOrd_of_lex {α κ μ : Type} [Ord α] [Ord κ] [Ord μ] [Std.LawfulEqOrd κ]
    [Std.LawfulEqOrd μ] (f : α → κ) (g : α → μ) (inj : ∀ a b, f a = f b → g a = g b → a = b)
    (h : ∀ a b : α, compare a b = compareLex (compareOn f) (compareOn g) a b) : Std.LawfulEqOrd α where
  compare_self {a} := by
    rw [h]
    simp [compareLex, compareOn]
  eq_of_compare {a b} hc := by
    rw [h, compareLex, Ordering.then_eq_eq] at hc
    exact inj a b (Std.LawfulEqCmp.eq_of_compare hc.1) (Std.LawfulEqCmp.eq_of_compare hc.2)

instance : Std.LawfulEqOrd LockTarget :=
  lawfulEqOrd_of_lex LockTarget.key LockTarget.column
    (fun ⟨_, _⟩ ⟨_, _⟩ hk hc => by cases hk; cases hc; rfl) fun _ _ => rfl

instance : Std.LawfulEqOrd LockedColumn :=
  lawfulEqOrd_of_lex LockedColumn.store LockedColumn.target
    (fun ⟨_, _⟩ ⟨_, _⟩ hs ht => by cases hs; cases ht; rfl) fun _ _ => rfl

/-! ## Rows -/

theorem columnSlice_contains (column x : Bytes) :
    (Checking.columnSlice column).contains x = true ↔ x = column := by
  simp only [Slice.contains, Checking.columnSlice, Bytes.before, Bool.and_eq_true, beq_iff_eq]
  constructor
  · rintro ⟨h, h'⟩
    exact Bytes.eq_of_before h h'
  · rintro rfl
    refine ⟨by simp, ?_⟩
    have h := Bytes.compare_append_left x [] [0]
    rwa [List.append_nil] at h

/-- Reading the slice of a column finds what the column holds. -/
theorem Row.find_columnSlice (row : Row) (column : Bytes) :
    ((row.read (Checking.columnSlice column)).find? fun e => e.column == column).map Entry.value =
      row.get? column := by
  have hread : row.read (Checking.columnSlice column) =
      ((row.toList.filter fun b => b.1 == column).map fun b => ⟨b.1, b.2⟩).take 1 := by
    have hfilter : row.toList.filter (fun b => (Checking.columnSlice column).contains b.1) =
        row.toList.filter fun b => b.1 == column := by
      refine List.filter_congr fun b _ => ?_
      rw [Bool.eq_iff_iff, columnSlice_contains, beq_iff_eq]
    unfold Row.read
    rw [hfilter]
    rfl
  rw [hread]
  cases hl : row.toList.filter fun b => b.1 == column with
  | nil =>
    cases hv : row.get? column with
    | none => rfl
    | some v =>
      have hm := List.filter_eq_nil_iff.mp hl _ (SortedMap.mem_toList_iff.mpr hv)
      simp at hm
  | cons b rest =>
    have hb : b ∈ row.toList.filter fun b => b.1 == column := hl ▸ List.mem_cons_self
    obtain ⟨hm, he⟩ := List.mem_filter.mp hb
    have he := beq_iff_eq.mp he
    subst he
    have hv : row.get? b.1 = some b.2 := SortedMap.mem_toList_iff.mp hm
    simp [hv]

/-- The columns of a row that a mutation deletes or adds. -/
def Mutation.columns (m : Mutation) : List Bytes := m.deletions ++ m.additions.map Entry.column

theorem Mutation.get?_applyTo {m : Mutation} {column : Bytes} (h : column ∉ m.columns) (row : Row) :
    (m.applyTo row).get? column = row.get? column := by
  obtain ⟨hd, ha⟩ := not_or.mp (mt List.mem_append.mpr h)
  have hnone : m.lastAdditions.get? column = none := by
    rw [get?_lastAdditions, Option.map_eq_none_iff, List.find?_eq_none]
    intro e he hcolumn
    exact ha (List.mem_map.mpr ⟨e, List.mem_reverse.mp he, by simpa using hcolumn⟩)
  rw [get?_applyTo_eq, hnone, if_neg hd]
  rfl

/-! ## Stores -/

namespace Memory

variable {m m' : Memory} {c : LockedColumn}

/-- No two open stores are one, and stores yet to be opened are empty. -/
structure Sound (m : Memory) : Prop where
  opened : ∀ name n, m.stores.get? name = some n → n < m.opened
  apart : ∀ a b n, m.stores.get? a = some n → m.stores.get? b = some n → a = b
  blank : ∀ n, m.opened ≤ n → m.tables.get? n = none

theorem sound_new : new.Sound where
  opened := by simp [new]
  apart := by simp [new]
  blank := by simp [new]

/-- What a column of a store holds. -/
def holds (m : Memory) (c : LockedColumn) : Option Bytes :=
  ((m.contents c.store).row c.target.key).get? c.target.column

/-- The memory has come about by opening stores and mutating rows, and only the given columns have
changed. -/
structure Writes (columns : List LockedColumn) (m m' : Memory) : Prop where
  sound : m'.Sound
  stores : ∀ name n, m.stores.get? name = some n → m'.stores.get? name = some n
  transactions : m'.transactions = m.transactions
  begun : m'.begun = m.begun
  holds : ∀ c, c ∉ columns → m'.holds c = m.holds c

variable {columns : List LockedColumn}

theorem Sound.writes (h : m.Sound) : m.Writes [] m := ⟨h, fun _ _ h => h, rfl, rfl, fun _ _ => rfl⟩

theorem Writes.trans {m'' : Memory} {more : List LockedColumn} (h : Writes columns m m')
    (h' : Writes more m' m'') : Writes (columns ++ more) m m'' where
  sound := h'.sound
  stores name n hn := h'.stores name n (h.stores name n hn)
  transactions := h'.transactions.trans h.transactions
  begun := h'.begun.trans h.begun
  holds c hc := by
    obtain ⟨h₁, h₂⟩ := not_or.mp (mt List.mem_append.mpr hc)
    rw [h'.holds c h₂, h.holds c h₁]

/-- Writes that follow each other, each made in a memory that has come about from `m`. -/
theorem Writes.foldl {β : Type} {f : Memory → β → Memory} {touched : β → List LockedColumn}
    (hf : ∀ m', (∃ cs, Writes cs m m') → ∀ x, Writes (touched x) m' (f m' x))
    (h : Writes columns m m') (xs : List β) :
    Writes (columns ++ xs.flatMap touched) m (xs.foldl f m') := by
  induction xs generalizing columns m' with
  | nil => simpa using h
  | cons x xs ih =>
    rw [List.foldl_cons, List.flatMap_cons, ← List.append_assoc]
    exact ih (h.trans (hf m' ⟨columns, h⟩ x))

/-! ### Opening -/

theorem get?_stores_store (m : Memory) (name : String) :
    (m.store name).2.stores.get? name = some (m.store name).1.number := by
  unfold store
  split
  · assumption
  · simp [SortedMap.get?_put]

theorem contents_store (h : m.Sound) (name other : String) :
    (m.store name).2.contents other = m.contents other := by
  unfold store
  split
  · rfl
  · rename_i hnone
    unfold contents
    simp only [SortedMap.get?_put]
    by_cases hs : other = name
    · rw [if_pos hs, hs, hnone]
      simp only [table]
      rw [h.blank m.opened (Nat.le_refl _)]
      rfl
    · rw [if_neg hs]
      rfl

/-- Opening a store changes nothing that is stored. -/
theorem writes_store (h : m.Sound) (name : String) : m.Writes [] (m.store name).2 := by
  have hholds : ∀ c, c ∉ ([] : List LockedColumn) → (m.store name).2.holds c = m.holds c := by
    intro c _
    unfold holds
    rw [contents_store h]
  unfold store at hholds ⊢
  split at hholds
  · exact h.writes
  · rename_i hnone
    refine ⟨⟨fun a n hn => ?_, fun a b n ha hb => ?_, fun n hn => h.blank n (Nat.le_of_succ_le hn)⟩,
      fun a n hn => ?_, rfl, rfl, hholds⟩
    · simp only [SortedMap.get?_put] at hn
      split at hn
      · exact Option.some.inj hn ▸ Nat.lt_succ_self _
      · exact Nat.lt_succ_of_lt (h.opened a n hn)
    · simp only [SortedMap.get?_put] at ha hb
      split at ha <;> split at hb
      · simp_all
      · have := h.opened b n hb
        have := Option.some.inj ha
        omega
      · have := h.opened a n ha
        have := Option.some.inj hb
        omega
      · exact h.apart a b n ha hb
    · dsimp only
      rw [SortedMap.get?_put, if_neg, hn]
      rintro rfl
      rw [hnone] at hn
      cases hn

/-! ### Mutating -/

/-- The columns of the store with a name that a mutation of a row deletes or adds. -/
def mutated (store : String) (key : Bytes) (mutation : Mutation) : List LockedColumn :=
  mutation.columns.map fun column => ⟨store, key, column⟩

theorem mem_mutated {store : String} {key : Bytes} {mutation : Mutation} :
    c ∈ mutated store key mutation ↔
      c.store = store ∧ c.target.key = key ∧ c.target.column ∈ mutation.columns := by
  obtain ⟨s, k, x⟩ := c
  simp only [mutated, List.mem_map, LockedColumn.mk.injEq, LockTarget.mk.injEq]
  constructor
  · rintro ⟨_, h, rfl, rfl, rfl⟩
    exact ⟨rfl, rfl, h⟩
  · rintro ⟨rfl, rfl, h⟩
    exact ⟨x, h, rfl, rfl, rfl⟩

theorem table_mutate (m : Memory) (n k : Nat) (key : Bytes) (mutation : Mutation) :
    (m.mutate n key mutation).table k = if k = n then (m.table n).mutate key mutation else m.table k := by
  simp only [table, mutate, SortedMap.get?_put]
  split <;> rfl

/-- A mutation of a row changes the rows of its store and of no other. -/
theorem contents_mutate (h : m.Sound) {name : String} {n : Nat} (hn : m.stores.get? name = some n)
    (key : Bytes) (mutation : Mutation) (other : String) :
    (m.mutate n key mutation).contents other =
      if other = name then (m.contents name).mutate key mutation else m.contents other := by
  unfold contents
  rw [show (m.mutate n key mutation).stores = m.stores from rfl]
  by_cases ho : other = name
  · subst ho
    rw [if_pos rfl, hn]
    exact (table_mutate ..).trans (if_pos rfl)
  · rw [if_neg ho]
    cases hs : m.stores.get? other with
    | none => rfl
    | some k =>
      refine (table_mutate ..).trans (if_neg ?_)
      rintro rfl
      exact ho (h.apart other name k hs hn)

/-- A mutation of a row changes the columns that it deletes or adds and no other. -/
theorem writes_mutate (h : m.Sound) {name : String} {n : Nat} (hn : m.stores.get? name = some n)
    (key : Bytes) (mutation : Mutation) :
    m.Writes (mutated name key mutation) (m.mutate n key mutation) := by
  refine ⟨⟨h.opened, h.apart, fun k hk => ?_⟩, fun _ _ h => h, rfl, rfl, fun c hc => ?_⟩
  · have hlt : n < m.opened := h.opened name n hn
    have hk : m.opened ≤ k := hk
    have hb := h.blank k hk
    unfold mutate
    rw [SortedMap.get?_put, if_neg (by omega), hb]
  · unfold holds
    rw [contents_mutate h hn]
    split
    · rename_i hs
      rw [Table.row_mutate, hs]
      split
      · rename_i hkey
        rw [Mutation.get?_applyTo fun hm => hc (mem_mutated.mpr ⟨hs, hkey, hm⟩), hkey]
      · rfl
    · rfl

theorem writes_mutateRows (h : m.Sound) (name : String) (rows : SortedMap Bytes Mutation) :
    m.Writes (rows.toList.flatMap fun r => mutated name r.1 r.2) (m.mutateRows name rows) := by
  have hopen := get?_stores_store m name
  have hwrites := writes_store h name
  unfold mutateRows
  generalize m.store name = opened at hopen hwrites
  obtain ⟨handle, opened⟩ := opened
  dsimp only at hopen hwrites ⊢
  refine hwrites.trans (Writes.foldl (fun m' hm' r => ?_) hwrites.sound.writes rows.toList)
  obtain ⟨cs, hm'⟩ := hm'
  exact writes_mutate hm'.sound (hm'.stores name _ hopen) r.1 r.2

/-- Mutations of several rows of a store change the rows of that store and of no other. -/
theorem contents_mutateRows (h : m.Sound) (name : String) (rows : SortedMap Bytes Mutation)
    (other : String) :
    (m.mutateRows name rows).contents other =
      if other = name then (m.contents name).mutateRows rows else m.contents other := by
  have hfold (n : Nat) (l : List (Bytes × Mutation)) (m : Memory) (h : m.Sound)
      (hn : m.stores.get? name = some n) :
      (l.foldl (fun m r => m.mutate n r.1 r.2) m).contents other = if other = name
        then l.foldl (fun t r => t.mutate r.1 r.2) (m.contents name) else m.contents other := by
    induction l generalizing m with
    | nil => split <;> simp_all
    | cons r l ih =>
      rw [List.foldl_cons, ih _ (writes_mutate h hn r.1 r.2).sound hn, contents_mutate h hn,
        contents_mutate h hn, if_pos rfl, List.foldl_cons]
      split <;> rfl
  have hopen := get?_stores_store m name
  have hsound := (writes_store h name).sound
  rw [← contents_store h name name, ← contents_store h name other]
  exact hfold _ rows.toList _ hsound hopen

/-- The columns that a batch deletes or adds. -/
def mutatedMany (batch : Batch) : List LockedColumn :=
  batch.toList.flatMap fun b => b.2.toList.flatMap fun r => mutated b.1 r.1 r.2

/-- A batch changes the columns that it deletes or adds and no other. -/
theorem writes_mutateMany (h : m.Sound) (batch : Batch) :
    m.Writes (mutatedMany batch) (m.mutateMany batch) :=
  Writes.foldl (fun _ ⟨_, hm'⟩ b => writes_mutateRows hm'.sound b.1 b.2) h.writes batch.toList

/-- A batch mutates the rows of every store that it names. -/
theorem contents_mutateMany (h : m.Sound) (batch : Batch) (name : String) :
    (m.mutateMany batch).contents name =
      (m.contents name).mutateRows ((batch.get? name).getD .empty) := by
  unfold mutateMany
  rw [SortedMap.look_foldl Sound contents (fun rows t => t.mutateRows rows)
    (fun _ b hm => (writes_mutateRows hm b.1 b.2).sound)
    (fun _ hm name rows other => contents_mutateRows hm name rows other) batch h]
  cases batch.get? name <;> rfl

/-- A batch applies the mutation that it has for a row to that row, and so it does for every row. -/
theorem row_mutateMany (h : m.Sound) (batch : Batch) (name : String) (key : Bytes) :
    ((m.mutateMany batch).contents name).row key =
      (batch.mutation name key).applyTo ((m.contents name).row key) := by
  rw [contents_mutateMany h, Table.row_mutateRows]
  rfl

/-! ## Transactions -/

/-- The memory after a transaction has ended. -/
def closed (m : Memory) (t : TxHandle) : Memory := m.setRecord t { m.record t with ended := true }

theorem endTx_eq {t : TxHandle} (h : (m.record t).ended = false) : m.endTx t = (.ok (), m.closed t) := by
  unfold endTx
  dsimp only
  rw [if_neg (by simp [h])]
  rfl

theorem record_closed {t u : TxHandle} (h : u.number ≠ t.number) : (m.closed t).record u = m.record u := by
  unfold closed setRecord record
  rw [SortedMap.get?_put, if_neg h]

end Memory

end RowGraph
