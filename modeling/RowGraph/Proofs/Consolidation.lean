import RowGraph.Proofs.StoredColumns

/-!
# Consolidated mutations

A consolidated mutation is in canonical form: each added column once, each deleted column once, both in
order, and no column in both (`canonical_consolidate`).  It is the only one of that form with its effect, so
that mutations consolidate to the same just if they have the same effect on every row
(`consolidate_eq_iff`).

To make a mutation twice changes no more than to make it once (`applyTo_applyTo`).  So a batch of which the
stores have made some mutations before (`Memory.mutateOne`) leaves the same in memory as the batch alone
(`alike_retried`).
-/

namespace RowGraph

namespace Mutation

variable {a b : Mutation} {column : Bytes}

/-- The columns that are added and those that are deleted are in order, each of them once and in one of the
two. -/
structure Canonical (m : Mutation) : Prop where
  additions : (m.additions.map Entry.column).Pairwise fun c d => compare c d = .lt
  deletions : m.deletions.Pairwise fun c d => compare c d = .lt
  apart : ∀ c ∈ m.deletions, c ∉ m.additions.map Entry.column

theorem lastAdditions_eq_none : a.lastAdditions.get? column = none ↔ column ∉ a.additions.map Entry.column := by
  rw [get?_lastAdditions, Option.map_eq_none_iff, List.find?_eq_none]
  simp only [List.mem_reverse, decide_eq_true_eq, List.mem_map, not_exists, not_and]

theorem additions_consolidate :
    a.consolidate.additions.map Entry.column = a.lastAdditions.toList.map Prod.fst := by
  simp [consolidate, Function.comp_def]

theorem canonical_consolidate (m : Mutation) : m.consolidate.Canonical where
  additions := by
    rw [additions_consolidate]
    exact List.pairwise_map.mpr m.lastAdditions.increasing
  deletions := List.pairwise_map.mpr (SortedMap.increasing _)
  apart c hc := by
    rw [← lastAdditions_eq_none, get?_lastAdditions_consolidate]
    exact ((mem_deletions_consolidate m c).mp hc).2

/-- No column comes twice in what is in order. -/
theorem nodup_of_increasing {cs : List Bytes} (h : cs.Pairwise fun c d => compare c d = .lt) : cs.Nodup :=
  h.imp fun hlt he => by
    rw [he, SortedMap.compare_eq_iff.mpr rfl] at hlt
    cases hlt

theorem Canonical.isConsolidated (h : a.Canonical) : a.isConsolidated = true := by
  unfold Mutation.isConsolidated
  simp only [Bool.and_eq_true, decide_eq_true_eq, List.all_eq_true, Bool.not_eq_true', List.contains_eq_mem,
    decide_eq_false_iff_not]
  exact ⟨nodup_of_increasing h.additions, h.apart⟩

theorem Canonical.additions_eq (h : a.Canonical) :
    a.additions = a.lastAdditions.toList.map fun b => ⟨b.1, b.2⟩ := by
  unfold lastAdditions
  rw [SortedMap.toList_ofList (List.pairwise_map.mpr (List.pairwise_map.mp h.additions)), List.map_map]
  exact (List.map_id'' (fun _ => rfl) _).symm

/-- A mutation in canonical form is determined by what it adds and deletes. -/
theorem Canonical.ext (ha : a.Canonical) (hb : b.Canonical)
    (hadditions : ∀ c, a.lastAdditions.get? c = b.lastAdditions.get? c)
    (hdeletions : ∀ c, c ∈ a.deletions ↔ c ∈ b.deletions) : a = b := by
  have hadded : a.additions = b.additions := by
    rw [ha.additions_eq, hb.additions_eq, SortedMap.ext_get? hadditions]
  have hdeleted : a.deletions = b.deletions :=
    SortedMap.eq_of_increasing id ha.deletions hb.deletions hdeletions
  obtain ⟨_, _⟩ := a
  obtain ⟨_, _⟩ := b
  exact congr (congrArg Mutation.mk hadded) hdeleted

/-! ## The effect on rows -/

/-- Consolidating a mutation leaves the same row. -/
theorem applyTo_consolidate (m : Mutation) (row : Row) : m.consolidate.applyTo row = m.applyTo row :=
  SortedMap.ext_get? fun column => get?_consolidate m row column

/-- What has the same effect on every row adds the same. -/
theorem lastAdditions_of_applyTo (h : ∀ row, a.applyTo row = b.applyTo row) (c : Bytes) :
    a.lastAdditions.get? c = b.lastAdditions.get? c := by
  have hempty (m : Mutation) : (m.applyTo .empty).get? c = m.lastAdditions.get? c := by
    rw [get?_applyTo_eq]
    simp
  rw [← hempty a, ← hempty b, h]

/-- What has the same effect on every row deletes the same of the columns that it does not add. -/
theorem mem_deletions_of_applyTo (h : ∀ row, a.applyTo row = b.applyTo row)
    (hnone : a.lastAdditions.get? column = none) : column ∈ a.deletions ↔ column ∈ b.deletions := by
  have hdeleted {m : Mutation} (hm : m.lastAdditions.get? column = none) :
      (m.applyTo (SortedMap.empty.put column [])).get? column = none ↔ column ∈ m.deletions := by
    rw [get?_applyTo_eq, hm, SortedMap.get?_put_self]
    simp
  rw [← hdeleted hnone, h, hdeleted ((lastAdditions_of_applyTo h column).symm.trans hnone)]

/-- Mutations consolidate to the same just if they have the same effect on every row. -/
theorem consolidate_eq_iff : a.consolidate = b.consolidate ↔ ∀ row, a.applyTo row = b.applyTo row := by
  constructor
  · intro h row
    rw [← applyTo_consolidate a, h, applyTo_consolidate b]
  · intro h
    have hadditions := lastAdditions_of_applyTo h
    refine (canonical_consolidate a).ext (canonical_consolidate b) (fun c => ?_) fun c => ?_
    · rw [get?_lastAdditions_consolidate, get?_lastAdditions_consolidate, hadditions]
    · rw [mem_deletions_consolidate, mem_deletions_consolidate, hadditions]
      refine and_congr_left fun hnone => ?_
      exact mem_deletions_of_applyTo h ((hadditions c).trans hnone)

theorem consolidate_consolidate (m : Mutation) : m.consolidate.consolidate = m.consolidate :=
  consolidate_eq_iff.mpr (applyTo_consolidate m)

theorem lastAdditions_merge (a b : Mutation) (c : Bytes) :
    (a.merge b).lastAdditions.get? c = (b.lastAdditions.get? c).or (a.lastAdditions.get? c) := by
  simp only [get?_lastAdditions, merge, List.reverse_append, List.find?_append, Option.map_or]

/-- Merged mutations add what either adds, the second one last, and delete what either deletes. -/
theorem get?_applyTo_merge (a b : Mutation) (row : Row) (c : Bytes) :
    ((a.merge b).applyTo row).get? c = ((b.lastAdditions.get? c).or (a.lastAdditions.get? c)).or
      (if c ∈ a.deletions ∨ c ∈ b.deletions then none else row.get? c) := by
  rw [get?_applyTo_eq, lastAdditions_merge]
  simp only [merge, List.mem_append]

/-- Of what is merged each part may be consolidated before. -/
theorem consolidate_merge (a b : Mutation) :
    (a.consolidate.merge b.consolidate).consolidate = (a.merge b).consolidate := by
  refine consolidate_eq_iff.mpr fun row => SortedMap.ext_get? fun c => ?_
  simp only [get?_applyTo_merge, get?_lastAdditions_consolidate]
  cases hlast : (b.lastAdditions.get? c).or (a.lastAdditions.get? c) with
  | some value => rfl
  | none =>
    obtain ⟨hb, ha⟩ := Option.or_eq_none_iff.mp hlast
    simp [mem_deletions_consolidate, ha, hb]

/-- A mutation changes nothing of a row that it has been made in. -/
theorem applyTo_applyTo (m : Mutation) (row : Row) : m.applyTo (m.applyTo row) = m.applyTo row := by
  refine SortedMap.ext_get? fun c => ?_
  simp only [get?_applyTo_eq]
  cases m.lastAdditions.get? c with
  | some value => rfl
  | none =>
    simp only [Option.none_or]
    split <;> rfl

end Mutation

/-! ## Tables -/

/-- The row as a table keeps it, which is not at all without columns. -/
def Row.kept? (row : Row) : Option Row := if row.isEmpty then none else some row

namespace Table

variable (t : Table) (key : Bytes)

theorem get?_mutate (m : Mutation) (key' : Bytes) :
    (t.mutate key m).get? key' = if key' = key then (m.applyTo (t.row key)).kept? else t.get? key' := by
  unfold mutate Row.kept?
  dsimp only
  by_cases hempty : (m.applyTo (t.row key)).isEmpty = true
  · rw [if_pos hempty, SortedMap.get?_erase, if_pos hempty]
  · rw [if_neg hempty, SortedMap.get?_put, if_neg hempty]

theorem get?_mutateRows (rows : SortedMap Bytes Mutation) :
    (t.mutateRows rows).get? key =
      (rows.get? key).elim (t.get? key) fun m => (m.applyTo (t.row key)).kept? := by
  unfold mutateRows
  rw [SortedMap.look_foldl (fun _ => True) SortedMap.get? (fun m row? => (m.applyTo (row?.getD .empty)).kept?)
    (fun _ _ _ => trivial) (fun t _ k m k' => get?_mutate t k m k') rows trivial]
  rfl

/-- The mutation of one of the rows may be made before that of all. -/
theorem mutateRows_mutate {rows : SortedMap Bytes Mutation} {m : Mutation} (h : rows.get? key = some m) :
    (t.mutate key m).mutateRows rows = t.mutateRows rows := by
  refine SortedMap.ext_get? fun key' => ?_
  simp only [get?_mutateRows, row_mutate, get?_mutate]
  by_cases hkey : key' = key
  · subst hkey
    simp only [h, Option.elim_some, if_true, Mutation.applyTo_applyTo]
  · simp only [if_neg hkey]

end Table

/-! ## Memory -/

namespace Memory

/-- The same stores are open and hold the same, and the same is known of transactions. -/
structure Alike (m m' : Memory) : Prop where
  opened : ∀ name, (m.stores.get? name).isSome = (m'.stores.get? name).isSome
  contents : ∀ name, m.contents name = m'.contents name
  transactions : m.transactions = m'.transactions
  begun : m.begun = m'.begun

theorem Alike.refl (m : Memory) : m.Alike m := ⟨fun _ => rfl, fun _ => rfl, rfl, rfl⟩

theorem Alike.trans {m m' m'' : Memory} (h : m.Alike m') (h' : m'.Alike m'') : m.Alike m'' where
  opened name := (h.opened name).trans (h'.opened name)
  contents name := (h.contents name).trans (h'.contents name)
  transactions := h.transactions.trans h'.transactions
  begun := h.begun.trans h'.begun

theorem stores_mutateRows (m : Memory) (name : String) (rows : SortedMap Bytes Mutation) :
    (m.mutateRows name rows).stores = (m.store name).2.stores := by
  unfold mutateRows
  generalize m.store name = opened
  obtain ⟨handle, m⟩ := opened
  show (rows.toList.foldl (fun m r => m.mutate handle.number r.1 r.2) m).stores = m.stores
  induction rows.toList generalizing m with
  | nil => rfl
  | cons r l ih => exact ih (m.mutate handle.number r.1 r.2)

theorem isSome_stores_store (m : Memory) (name other : String) :
    ((m.store name).2.stores.get? other).isSome =
      if other = name then true else (m.stores.get? other).isSome := by
  unfold store
  by_cases ho : other = name
  · subst ho
    rw [if_pos rfl]
    split
    · rename_i hopen
      rw [hopen]
      rfl
    · rw [SortedMap.get?_put_self]
      rfl
  · rw [if_neg ho]
    split
    · rfl
    · rw [SortedMap.get?_put_of_ne ho]

/-- A batch opens the stores that it names. -/
theorem isSome_stores_mutateMany (m : Memory) (batch : Batch) (name : String) :
    ((m.mutateMany batch).stores.get? name).isSome =
      (batch.get? name).elim (m.stores.get? name).isSome fun _ => true := by
  have hrows (m : Memory) (name : String) (rows : SortedMap Bytes Mutation) (other : String) :
      ((m.mutateRows name rows).stores.get? other).isSome =
        if other = name then true else (m.stores.get? other).isSome := by
    rw [stores_mutateRows, isSome_stores_store]
  unfold mutateMany
  exact SortedMap.look_foldl (fun _ => True) (fun (m : Memory) name => (m.stores.get? name).isSome)
    (fun _ _ => true) (fun _ _ _ => trivial) (fun m _ => hrows m) batch trivial name

/-- The mutation of a row of the store with a name, which is opened for it. -/
def mutateOne (m : Memory) (d : String × Bytes × Mutation) : Memory :=
  let (handle, m) := m.store d.1
  m.mutate handle.number d.2.1 d.2.2

variable {m : Memory} {batch : Batch}

theorem writes_mutateOne (h : m.Sound) (d : String × Bytes × Mutation) :
    m.Writes (mutated d.1 d.2.1 d.2.2) (m.mutateOne d) :=
  (writes_store h d.1).trans
    (writes_mutate (writes_store h d.1).sound (get?_stores_store m d.1) d.2.1 d.2.2)

theorem contents_mutateOne (h : m.Sound) (name : String) (key : Bytes) (mutation : Mutation) (other : String) :
    (m.mutateOne (name, key, mutation)).contents other =
      if other = name then (m.contents name).mutate key mutation else m.contents other := by
  have hopen := get?_stores_store m name
  have hsound := (writes_store h name).sound
  rw [← contents_store h name name, ← contents_store h name other]
  exact contents_mutate hsound hopen key mutation other

theorem isSome_stores_mutateOne (m : Memory) (name : String) (key : Bytes) (mutation : Mutation)
    (other : String) : ((m.mutateOne (name, key, mutation)).stores.get? other).isSome =
      if other = name then true else (m.stores.get? other).isSome :=
  isSome_stores_store m name other

/-- A batch leaves the same if one of its mutations was made before. -/
theorem alike_mutateOne (h : m.Sound) {name : String} {rows : SortedMap Bytes Mutation} {key : Bytes}
    {mutation : Mutation} (hrows : batch.get? name = some rows) (hmutation : rows.get? key = some mutation) :
    ((m.mutateOne (name, key, mutation)).mutateMany batch).Alike (m.mutateMany batch) := by
  have hone := writes_mutateOne h (name, key, mutation)
  have hboth := writes_mutateMany hone.sound batch
  have halone := writes_mutateMany h batch
  refine
    { opened := fun other => ?_
      contents := fun other => ?_
      transactions := (hboth.transactions.trans hone.transactions).trans halone.transactions.symm
      begun := (hboth.begun.trans hone.begun).trans halone.begun.symm }
  · rw [isSome_stores_mutateMany, isSome_stores_mutateMany, isSome_stores_mutateOne]
    by_cases ho : other = name
    · rw [ho, hrows]
      rfl
    · rw [if_neg ho]
  · rw [contents_mutateMany hone.sound, contents_mutateMany h, contents_mutateOne h]
    by_cases ho : other = name
    · rw [if_pos ho, ho, hrows]
      exact Table.mutateRows_mutate _ _ hmutation
    · rw [if_neg ho]

/-- A batch leaves the same if some of its mutations were made before, however often and in any order. -/
theorem alike_retried (h : m.Sound) {done : List (String × Bytes × Mutation)}
    (hdone : ∀ d ∈ done, ∃ rows, batch.get? d.1 = some rows ∧ rows.get? d.2.1 = some d.2.2) :
    ((done.foldl mutateOne m).mutateMany batch).Alike (m.mutateMany batch) := by
  induction done generalizing m with
  | nil => exact .refl _
  | cons d done ih =>
    obtain ⟨rows, hrows, hmutation⟩ := hdone d List.mem_cons_self
    have hrest := ih (writes_mutateOne h d).sound fun d hd => hdone d (List.mem_cons_of_mem _ hd)
    exact hrest.trans (alike_mutateOne h hrows hmutation)

end Memory

/-- Consolidating keeps the effect on rows, makes canonical, and may be done again or before a merge, which
adds and deletes what both mutations do.  A batch applies its mutation to every row, and what of it was made
before its retry does not matter. -/
theorem Mutation.consolidation_harmless (a b : Mutation) (row : Row) {m : Memory} (h : m.Sound) {batch : Batch}
    {done : List (String × Bytes × Mutation)}
    (hdone : ∀ d ∈ done, ∃ rows, batch.get? d.1 = some rows ∧ rows.get? d.2.1 = some d.2.2) :
    a.consolidate.applyTo row = a.applyTo row ∧
      a.consolidate.isConsolidated = true ∧ a.consolidate.Canonical ∧
      a.consolidate.consolidate = a.consolidate ∧
      (a.merge b).consolidate = (a.consolidate.merge b.consolidate).consolidate ∧
      (∀ c, ((a.merge b).applyTo row).get? c = ((b.lastAdditions.get? c).or (a.lastAdditions.get? c)).or
        (if c ∈ a.deletions ∨ c ∈ b.deletions then none else row.get? c)) ∧
      (∀ name key, ((m.mutateMany batch).contents name).row key =
        (batch.mutation name key).applyTo ((m.contents name).row key)) ∧
      ((done.foldl Memory.mutateOne m).mutateMany batch).Alike (m.mutateMany batch) :=
  ⟨applyTo_consolidate a row, (canonical_consolidate a).isConsolidated, canonical_consolidate a,
    consolidate_consolidate a, (consolidate_merge a b).symm, get?_applyTo_merge a b row,
    Memory.row_mutateMany h batch, Memory.alike_retried h hdone⟩

/-- A batch for two stores, of which one row was mutated twice before. -/
theorem Mutation.consolidation_harmless_retried :
    let first : Mutation := ⟨[⟨[1], [5]⟩, ⟨[1], [6]⟩], [[1], [2]]⟩
    let second : Mutation := ⟨[⟨[3], [7]⟩], []⟩
    let batch := Batch.set (Batch.set .empty "edges" [0] first) "index" [9] second
    let done := [("index", [9], second), ("index", [9], second)]
    let retried := (done.foldl Memory.mutateOne Memory.new).mutateMany batch
    retried.Alike (Memory.new.mutateMany batch) ∧
      (retried.contents "edges").row [0] = SortedMap.empty.put [1] [6] ∧
      (retried.contents "index").row [9] = SortedMap.empty.put [3] [7] ∧
      first.consolidate = ⟨[⟨[1], [6]⟩], [[2]]⟩ := by
  intro first second batch done retried
  have hdone : ∀ d ∈ done, ∃ rows, batch.get? d.1 = some rows ∧ rows.get? d.2.1 = some d.2.2 := by
    intro d hd
    obtain rfl : d = ("index", [9], second) := by simpa [done] using hd
    exact ⟨SortedMap.empty.put [9] second, by decide, by decide⟩
  obtain ⟨-, -, -, -, -, -, hrows, halike⟩ := consolidation_harmless first second .empty Memory.sound_new hdone
  refine ⟨halike, ?_, ?_, by decide⟩
  · rw [halike.contents, hrows]
    decide
  · rw [halike.contents, hrows]
    decide

end RowGraph
