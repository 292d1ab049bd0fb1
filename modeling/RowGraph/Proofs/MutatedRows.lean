import RowGraph.Proofs.ByteOrder
import RowGraph.Proofs.Lookup
import RowGraph.Row.Mutation

/-!
# Mutated rows

What a column of a row holds after a mutation (`Mutation.get?_applyTo_eq`): what was added to it last,
nothing if it was only deleted, and else what it held before.  Consolidating a mutation changes nothing of
this (`Mutation.get?_consolidate`).  A row of a table that many rows are mutated in is changed by its own
mutation only (`Table.row_mutateRows`), which a batch has for it (`Batch.mutation`).
-/

namespace RowGraph

namespace Mutation

variable (m : Mutation) (row : Row) (column : Bytes)

theorem get?_lastAdditions :
    m.lastAdditions.get? column = (m.additions.reverse.find? fun e => e.column = column).map Entry.value := by
  unfold lastAdditions SortedMap.ofList
  rw [List.foldl_map, SortedMap.get?_foldl_put Entry.column Entry.value, SortedMap.get?_empty, Option.or_none]

/-- After a mutation a column holds what was added last, nothing if it was only deleted, and else what it held. -/
theorem get?_applyTo_eq :
    (m.applyTo row).get? column = (m.lastAdditions.get? column).or
      (if column ∈ m.deletions then none else row.get? column) := by
  unfold applyTo
  rw [SortedMap.get?_foldl_put Entry.column Entry.value, get?_lastAdditions]
  congr 1
  induction m.deletions generalizing row with
  | nil => simp
  | cons c rest ih =>
    rw [List.foldl_cons, ih, SortedMap.get?_erase]
    by_cases h : column = c <;> simp [h]

theorem get?_lastAdditions_consolidate :
    m.consolidate.lastAdditions.get? column = m.lastAdditions.get? column := by
  have hmap : (m.lastAdditions.toList.map fun b => (⟨b.1, b.2⟩ : Entry)).map
      (fun e => (e.column, e.value)) = m.lastAdditions.toList := by
    rw [List.map_map]
    exact List.map_id'' (fun _ => rfl) _
  have hlast : m.consolidate.lastAdditions = SortedMap.ofList m.lastAdditions.toList := by
    rw [← hmap]
    rfl
  rw [hlast, SortedMap.ofList_toList]

theorem mem_deletions_consolidate :
    column ∈ m.consolidate.deletions ↔ column ∈ m.deletions ∧ m.lastAdditions.get? column = none := by
  unfold consolidate
  rw [SortedMap.mem_keys_iff, SortedMap.get?_ofList]
  simp only [Option.isSome_map, List.find?_isSome, List.mem_reverse, List.mem_map, List.mem_filter,
    decide_eq_true_eq]
  constructor
  · rintro ⟨_, ⟨c, ⟨hc, hnot⟩, rfl⟩, rfl⟩
    refine ⟨hc, ?_⟩
    simpa [SortedMap.contains] using hnot
  · rintro ⟨hc, hnone⟩
    exact ⟨(column, ()), ⟨column, ⟨hc, by simp [SortedMap.contains, hnone]⟩, rfl⟩, rfl⟩

/-- Consolidating a mutation does not change its effect. -/
theorem get?_consolidate :
    (m.consolidate.applyTo row).get? column = (m.applyTo row).get? column := by
  rw [get?_applyTo_eq, get?_applyTo_eq, get?_lastAdditions_consolidate]
  cases hl : m.lastAdditions.get? column with
  | some v => rfl
  | none => simp only [mem_deletions_consolidate, hl, and_true]

end Mutation

/-! ## Tables -/

theorem Table.row_mutate (t : Table) (key key' : Bytes) (m : Mutation) :
    (t.mutate key m).row key' = if key' = key then m.applyTo (t.row key) else t.row key' := by
  unfold Table.mutate
  dsimp only
  split
  · rename_i he
    unfold Table.row at he ⊢
    rw [SortedMap.get?_erase]
    split
    · rw [SortedMap.eq_empty_of_isEmpty he]
      rfl
    · rfl
  · unfold Table.row
    rw [SortedMap.get?_put]
    split <;> rfl

/-- The table after mutations of several rows. -/
def Table.mutateRows (t : Table) (rows : SortedMap Bytes Mutation) : Table :=
  rows.toList.foldl (fun t r => t.mutate r.1 r.2) t

theorem Table.row_mutateRows (rows : SortedMap Bytes Mutation) (t : Table) (key : Bytes) :
    (t.mutateRows rows).row key = ((rows.get? key).getD .empty).applyTo (t.row key) := by
  unfold Table.mutateRows
  rw [SortedMap.look_foldl (fun _ => True) Table.row Mutation.applyTo (fun _ _ _ => trivial)
    (fun t _ k m k' => t.row_mutate k k' m) rows trivial]
  cases rows.get? key <;> rfl

/-- The mutation that a batch has for a row; it is empty if the batch does not name the row. -/
def Batch.mutation (b : Batch) (name : String) (key : Bytes) : Mutation :=
  (((b.get? name).getD .empty).get? key).getD .empty

end RowGraph
