import RowGraph.SortedMap
import RowGraph.Row.Slice

/-!
# Rows and their mutations

A row is a sorted map from columns to values. A mutation deletes columns first and then adds
entries; a later addition of a column replaces an earlier one. Consolidating a mutation leaves one
addition per column and no deletion of a column that is added, in column order, with the same
effect. A batch holds one mutation for each of its rows.
-/

namespace RowGraph

/-- The columns of one key with their values. -/
abbrev Row := SortedMap Bytes Bytes

/-- Reads a slice of a row. -/
def Row.read (row : Row) (s : Slice) : List Entry :=
  let found := (row.toList.filter (fun b => s.contains b.1)).map (fun b => ⟨b.1, b.2⟩)
  match s.limit with
  | some n => found.take n
  | none => found

/-- Deletions and additions for one row. -/
structure Mutation where
  additions : List Entry
  deletions : List Bytes
  deriving DecidableEq, Repr, Inhabited

namespace Mutation

/-- Nothing to do. -/
def empty : Mutation := ⟨[], []⟩

/-- One more addition. -/
def add (m : Mutation) (e : Entry) : Mutation := { m with additions := m.additions ++ [e] }

/-- One more deletion. -/
def delete (m : Mutation) (column : Bytes) : Mutation :=
  { m with deletions := m.deletions ++ [column] }

/-- Is there nothing to do? -/
def isEmpty (m : Mutation) : Bool := m.additions.isEmpty && m.deletions.isEmpty

/-- The additions and deletions of both. -/
def merge (a b : Mutation) : Mutation :=
  ⟨a.additions ++ b.additions, a.deletions ++ b.deletions⟩

/-- The last addition of every column. -/
def lastAdditions (m : Mutation) : Row :=
  SortedMap.ofList (m.additions.map fun e => (e.column, e.value))

/-- One addition per column, and no deletion of a column that is added. -/
def consolidate (m : Mutation) : Mutation :=
  let last := m.lastAdditions
  let deleted : SortedMap Bytes Unit :=
    SortedMap.ofList ((m.deletions.filter (fun c => !last.contains c)).map fun c => (c, ()))
  ⟨last.toList.map (fun b => ⟨b.1, b.2⟩), deleted.keys⟩

/-- Is every added column added once, and none of them deleted? -/
def isConsolidated (m : Mutation) : Bool :=
  let added := m.additions.map (·.column)
  decide added.Nodup && m.deletions.all (fun c => !added.contains c)

/-- The row after the mutation. -/
def applyTo (m : Mutation) (row : Row) : Row :=
  m.additions.foldl (fun r e => r.put e.column e.value)
    (m.deletions.foldl (fun r c => r.erase c) row)

end Mutation

/-- The rows of a store. A row without columns is not kept. -/
abbrev Table := SortedMap Bytes Row

namespace Table

/-- The row of a key. -/
def row (t : Table) (key : Bytes) : Row := (t.get? key).getD .empty

/-- Reads a slice of the row of a key. -/
def read (t : Table) (key : Bytes) (s : Slice) : List Entry := (t.row key).read s

/-- The table after a mutation of one row. -/
def mutate (t : Table) (key : Bytes) (m : Mutation) : Table :=
  let row := m.applyTo (t.row key)
  if row.isEmpty then t.erase key else t.put key row

end Table

/-- Mutations by store and key, at most one for every row. -/
abbrev Batch := SortedMap String (SortedMap Bytes Mutation)

namespace Batch

/-- Sets the mutation of a row; it replaces the one that the row had. -/
def set (b : Batch) (store : String) (key : Bytes) (m : Mutation) : Batch :=
  b.put store (((b.get? store).getD .empty).put key m)

end Batch

end RowGraph
