import Mathlib.Data.List.Find
import Mathlib.Data.List.Induction
import RowGraph.Proofs.Commits

/-!
# The net effect of changes

A transaction does not keep the history of its changes.  A relation that was added and then removed is gone
from it, one that was removed may come back under its id, and a commit deletes before it adds.

Still a commit leaves in every column what the changes leave there one after another: this holds at the start
(`nets_unchanged`) and is kept by every change that is allowed where it is made (`Nets.make`).  For then at
most one of the added relations has the column, and a stored one that had it was removed before.
-/

namespace RowGraph

open Committed (written)
open Layout (entriesFor)

/-- The columns of a relation, each in the row of a key. -/
def Relation.columns (schema : Schema) (r : Relation) : List LockTarget :=
  (written schema r).map fun e => ⟨e.1, e.2.column⟩

theorem mem_columns {schema : Schema} {r : Relation} {x : LockTarget} :
    x ∈ r.columns schema ↔ ∃ value, (x.key, ⟨x.column, value⟩) ∈ written schema r := by
  obtain ⟨key, column⟩ := x
  simp only [Relation.columns, List.mem_map, LockTarget.mk.injEq]
  constructor
  · rintro ⟨⟨_, _, value⟩, hm, rfl, rfl⟩
    exact ⟨value, hm⟩
  · rintro ⟨value, hm⟩
    exact ⟨_, hm, rfl, rfl⟩

namespace GraphTx

variable {S T : Type} {schema : Schema} {x : LockTarget} {before now : Option Bytes} {r : Relation}

/-! ## Changes -/

/-- A change that a transaction makes. -/
inductive Change
  | add (r : Relation)
  | remove (r : Relation)
  deriving DecidableEq

namespace Change

/-- The relation that is added or removed. -/
def relation : Change → Relation
  | add r | remove r => r

/-- The change, made in a transaction. -/
def make (g : GraphTx S T) : Change → GraphTx S T
  | add r => g.add r
  | remove r => g.remove r

/-- The relations that are visible after the change. -/
def visible (relations : List Relation) : Change → List Relation
  | add r => relations ++ [r]
  | remove r => relations.filter (· ≠ r)

/-- A relation is added under an id and at columns that no visible one has, and a visible one is removed. -/
def Allowed (schema : Schema) (relations : List Relation) : Change → Prop
  | add r => ∀ a ∈ relations, a.id ≠ r.id ∧ ∀ x ∈ a.columns schema, x ∉ r.columns schema
  | remove r => r ∈ relations

instance (schema : Schema) (relations : List Relation) : (c : Change) → Decidable (c.Allowed schema relations)
  | add _ => inferInstanceAs (Decidable (∀ a ∈ relations, _))
  | remove _ => inferInstanceAs (Decidable (_ ∈ relations))

/-- What a column holds after the change, if nothing else is changed. -/
def held (schema : Schema) (x : LockTarget) (before : Option Bytes) : Change → Option Bytes
  | add r => if x ∈ r.columns schema then some r.storedBytes else before
  | remove r => if x ∈ r.columns schema then none else before

end Change

/-- Each change is allowed where it is made. -/
def StepwiseAllowed (schema : Schema) : List Relation → List Change → Prop
  | _, [] => True
  | relations, c :: cs => c.Allowed schema relations ∧ StepwiseAllowed schema (c.visible relations) cs

instance decidableStepwiseAllowed (schema : Schema) :
    (relations : List Relation) → (cs : List Change) → Decidable (StepwiseAllowed schema relations cs)
  | _, [] => .isTrue trivial
  | relations, c :: cs =>
    have := decidableStepwiseAllowed schema (c.visible relations) cs
    inferInstanceAs (Decidable (_ ∧ _))

/-! ## What a commit leaves in a column -/

/-- What the removals leave in a column. -/
def kept (schema : Schema) (g : GraphTx S T) (x : LockTarget) (before : Option Bytes) : Option Bytes :=
  if ∃ r ∈ g.removed.values, x ∈ r.columns schema then none else before

/-- What a commit leaves in a column: the relation that was added there last, or what the removals leave. -/
def left (schema : Schema) (g : GraphTx S T) (x : LockTarget) (before : Option Bytes) : Option Bytes :=
  ((g.added.reverse.find? fun r => x ∈ r.columns schema).map Relation.storedBytes).or (g.kept schema x before)

variable {g : GraphTx S T}

theorem get?_additions (rs : List Relation) (x : LockTarget) :
    (((entriesAt x.key (rs.flatMap (written schema))).reverse.find? fun e => e.column = x.column).map
        Entry.value) =
      (rs.reverse.find? fun r => x ∈ r.columns schema).map Relation.storedBytes := by
  induction rs using List.reverseRecOn with
  | nil => rfl
  | append_singleton rs r ih =>
    have happend : entriesAt x.key ((rs ++ [r]).flatMap (written schema)) =
        entriesAt x.key (rs.flatMap (written schema)) ++ entriesAt x.key (written schema r) := by
      simp [entriesAt]
    rw [happend, List.reverse_append, List.find?_append, List.reverse_append, List.find?_append, Option.map_or,
      Option.map_or, ih]
    congr 1
    cases hfind : (entriesAt x.key (written schema r)).reverse.find? fun e => e.column = x.column with
    | some e =>
      have hcolumn : e.column = x.column := by simpa using List.find?_some hfind
      have hm := mem_entriesAt.mp (List.mem_reverse.mp (List.mem_of_find?_eq_some hfind))
      have hx : x ∈ r.columns schema := mem_columns.mpr ⟨e.value, by rw [← hcolumn]; exact hm⟩
      simp [hx, value_of_written hm]
    | none =>
      have hx : x ∉ r.columns schema := by
        intro hx
        obtain ⟨value, hm⟩ := mem_columns.mp hx
        have hne := List.find?_eq_none.mp hfind _ (List.mem_reverse.mpr (mem_entriesAt.mpr hm))
        simp at hne
      simp [hx]

theorem mem_deletions_iff : x.column ∈ (g.mutationAt schema x.key).deletions ↔
    ∃ r ∈ g.removed.values, x ∈ r.columns schema := by
  simp only [mem_deletions, SortedMap.mem_values_iff, mem_columns]
  constructor
  · rintro ⟨id, r, value, hr, hm⟩
    exact ⟨r, ⟨id, hr⟩, value, hm⟩
  · rintro ⟨r, ⟨id, hr⟩, value, hm⟩
    exact ⟨id, r, value, hr, hm⟩

theorem get?_mutationAt (row : Row) :
    ((g.mutationAt schema x.key).applyTo row).get? x.column = g.left schema x (row.get? x.column) := by
  rw [Mutation.get?_applyTo_eq, Mutation.get?_lastAdditions]
  simp only [mem_deletions_iff]
  congr 1
  exact get?_additions g.added x

/-- What is in memory after the batch of a transaction has been written. -/
theorem holds_mutateMany {m : Memory} (h : m.Sound) {batch : Batch} (hbatch : g.batch schema = .ok batch)
    (c : LockedColumn) :
    (m.mutateMany batch).holds c =
      if c.store = g.storeName then g.left schema c.target (m.holds c) else m.holds c := by
  unfold Memory.holds
  by_cases hc : c.store = g.storeName
  · rw [if_pos hc, hc, row_mutateMany h hbatch, get?_mutationAt]
  · have hnone : batch.get? c.store = none := by
      obtain ⟨-, -, rfl⟩ := batch_eq_ok.mp hbatch
      split
      · rfl
      · exact SortedMap.get?_put_of_ne hc ..
    rw [if_neg hc, Memory.contents_mutateMany h, hnone]
    rfl

/-! ## One more change -/

theorem left_add (g : GraphTx S T) (r : Relation) :
    (g.add r).left schema x before =
      if x ∈ r.columns schema then some r.storedBytes else g.left schema x before := by
  unfold left kept
  rw [show (g.add r).added = g.added ++ [r] from rfl, List.reverse_append, List.find?_append]
  by_cases hx : x ∈ r.columns schema
  · simp [hx]
  · simp [hx]
    rfl

/-- Where no relation was added, a commit leaves what the removals leave. -/
theorem left_of_not_added (h : ∀ a ∈ g.added, x ∉ a.columns schema) :
    g.left schema x before = g.kept schema x before := by
  unfold left
  rw [List.find?_eq_none.mpr fun a ha => by simpa using h a (List.mem_reverse.mp ha)]
  rfl

/-- A commit leaves the same without relations that were added elsewhere. -/
theorem left_of_dropped {g' : GraphTx S T} {p : Relation → Bool} (hadded : g'.added = g.added.filter p)
    (hremoved : g'.removed = g.removed) (h : ∀ a ∈ g.added, x ∈ a.columns schema → p a = true) :
    g'.left schema x before = g.left schema x before := by
  have hfind : (g'.added.reverse.find? fun a => x ∈ a.columns schema) =
      g.added.reverse.find? fun a => x ∈ a.columns schema := by
    rw [hadded, ← List.filter_reverse, List.find?_filter]
    refine List.find?_congr fun a ha => ?_
    have hp := h a (List.mem_reverse.mp ha)
    by_cases hx : x ∈ a.columns schema <;> simp [hx, hp]
  unfold left kept
  rw [hfind, hremoved]

/-- A removal that is noted clears the columns of the relation, and no other one forgets its own. -/
theorem kept_put {g' : GraphTx S T} (hg : g'.removed = g.removed.put r.id r)
    (hr : ∀ a, g.removed.get? r.id = some a → a = r) :
    g'.kept schema x before = if x ∈ r.columns schema then none else g.kept schema x before := by
  have hiff : (∃ a ∈ g'.removed.values, x ∈ a.columns schema) ↔
      x ∈ r.columns schema ∨ ∃ a ∈ g.removed.values, x ∈ a.columns schema := by
    simp only [hg, SortedMap.mem_values_iff, SortedMap.get?_put]
    constructor
    · rintro ⟨a, ⟨id, ha⟩, hx⟩
      split at ha
      · obtain rfl := Option.some.inj ha
        exact .inl hx
      · exact .inr ⟨a, ⟨id, ha⟩, hx⟩
    · rintro (hx | ⟨a, ⟨id, ha⟩, hx⟩)
      · exact ⟨r, ⟨r.id, by rw [if_pos rfl]⟩, hx⟩
      · by_cases hid : id = r.id
        · obtain rfl := hr a (hid ▸ ha)
          exact ⟨a, ⟨a.id, by rw [if_pos rfl]⟩, hx⟩
        · exact ⟨a, ⟨id, by rw [if_neg hid, ha]⟩, hx⟩
  unfold kept
  simp only [hiff]
  by_cases hx : x ∈ r.columns schema <;> simp [hx]

/-- A commit of the transaction will leave in a column what is there now, if the changes so far were made one
by one. -/
structure Nets (schema : Schema) (stored : List Relation) (x : LockTarget) (before now : Option Bytes)
    (g : GraphTx S T) : Prop where
  changed : g.Changed (fun _ => True) stored
  /-- No other visible relation has the column, if one that was added has it. -/
  apart : ∀ a ∈ g.added, ∀ b ∈ g.visible stored, x ∈ a.columns schema → x ∈ b.columns schema → a = b
  /-- Where a relation was added nothing is kept of what was there before. -/
  cleared : ∀ a ∈ g.added, x ∈ a.columns schema → g.kept schema x before = none
  left : g.left schema x before = now

section

variable {stored : List Relation}

theorem nets_unchanged (hadded : g.added = []) (hremoved : g.removed = .empty) :
    g.Nets schema stored x before before where
  changed := .unchanged hadded hremoved
  apart a ha := by simp [hadded] at ha
  cleared a ha := by simp [hadded] at ha
  left := by
    rw [left_of_not_added (by simp [hadded]), kept, hremoved]
    rfl

/-- What a stored relation leaves that is not visible any more. -/
theorem Nets.kept_of_not_visible (h : g.Nets schema stored x before now)
    (hids : ∀ r ∈ stored, ∀ r' ∈ stored, r.id = r'.id → r = r') {a : Relation} (ha : a ∈ stored)
    (hx : x ∈ a.columns schema) (hgone : a ∉ g.visible stored) : g.kept schema x before = none := by
  have hremoved : g.isRemoved a.id = true := by
    by_contra hkept
    exact hgone (mem_visible.mpr (.inl ⟨ha, Bool.not_eq_true _ ▸ hkept⟩))
  obtain ⟨b, hb⟩ := Option.isSome_iff_exists.mp hremoved
  obtain ⟨hmem, hid⟩ := h.changed.removed hb
  obtain rfl := hids b hmem a ha hid
  exact if_pos ⟨b, SortedMap.mem_values_iff.mpr ⟨_, hb⟩, hx⟩

theorem Nets.add (h : g.Nets schema stored x before now)
    (hids : ∀ r ∈ stored, ∀ r' ∈ stored, r.id = r'.id → r = r')
    (hfree : (Change.add r).Allowed schema (g.visible stored))
    (hheld : x ∈ r.columns schema → before.isSome → ∃ a ∈ stored, x ∈ a.columns schema) :
    (g.add r).Nets schema stored x before ((Change.add r).held schema x now) where
  changed := h.changed.add trivial fun a ha => (hfree a ha).1
  apart a ha b hb hxa hxb := by
    rw [visible_add, List.mem_append, List.mem_singleton] at hb
    obtain hold | hnew := List.mem_append.mp ha
    · obtain hb | rfl := hb
      · exact h.apart a hold b hb hxa hxb
      · exact absurd hxb ((hfree a (mem_visible.mpr (.inr hold))).2 x hxa)
    · obtain rfl := List.mem_singleton.mp hnew
      obtain hb | rfl := hb
      · exact absurd hxa ((hfree b hb).2 x hxb)
      · rfl
  cleared a ha hx := by
    obtain ha | ha := List.mem_append.mp ha
    · exact h.cleared a ha hx
    · obtain rfl := List.mem_singleton.mp ha
      cases before with
      | none => simp [kept]
      | some value =>
        obtain ⟨b, hb, hxb⟩ := hheld hx rfl
        exact h.kept_of_not_visible hids hb hxb fun hb => (hfree b hb).2 x hxb hx
  left := by
    rw [left_add, h.left]
    rfl

/-- No other relation that was added has a column of a visible one. -/
theorem Nets.not_added (h : g.Nets schema stored x before now) (hr : r ∈ g.visible stored)
    (hx : x ∈ r.columns schema) {a : Relation} (ha : a ∈ g.added) (hid : a.id ≠ r.id) : x ∉ a.columns schema :=
  fun hxa => hid (congrArg Relation.id (h.apart a ha r hr hxa hx))

/-- The removal of a relation that the transaction had added takes back its addition. -/
theorem Nets.remove_added (h : g.Nets schema stored x before now)
    (hids : ∀ r ∈ stored, ∀ r' ∈ stored, r.id = r'.id → r = r') (hr : r ∈ g.added)
    (hadded : (g.remove r).added = g.added.filter fun a => a.id != r.id)
    (hremoved : (g.remove r).removed = g.removed) :
    (g.remove r).Nets schema stored x before ((Change.remove r).held schema x now) := by
  have hvisible : r ∈ g.visible stored := mem_visible.mpr (.inr hr)
  have hkept : (g.remove r).kept schema x before = g.kept schema x before := by
    unfold kept
    rw [hremoved]
  refine
    { changed := h.changed.remove (.inr hr)
      apart := fun a ha b hb => h.apart a (mem_added_remove ha) b (mem_visible_remove hb)
      cleared := fun a ha hxa => hkept.trans (h.cleared a (mem_added_remove ha) hxa)
      left := ?_ }
  by_cases hx : x ∈ r.columns schema
  · have hnew : ∀ a ∈ (g.remove r).added, x ∉ a.columns schema := by
      intro a ha
      rw [hadded, List.mem_filter, bne_iff_ne] at ha
      exact h.not_added hvisible hx ha.1 ha.2
    rw [left_of_not_added hnew, hkept, h.cleared r hr hx]
    exact (if_pos hx).symm
  · have helsewhere : ∀ a ∈ g.added, x ∈ a.columns schema → (a.id != r.id) = true := by
      intro a ha hxa
      rw [bne_iff_ne]
      intro hid
      obtain rfl := h.changed.ids hids a (mem_visible.mpr (.inr ha)) r hvisible hid
      exact hx hxa
    rw [left_of_dropped hadded hremoved helsewhere, h.left]
    exact (if_neg hx).symm

/-- The removal of a relation that the transaction found in the store is noted, and clears its columns. -/
theorem Nets.remove_stored (h : g.Nets schema stored x before now)
    (hids : ∀ r ∈ stored, ∀ r' ∈ stored, r.id = r'.id → r = r') (hr : r ∈ g.visible stored)
    (hnone : ∀ a ∈ g.added, a.id ≠ r.id) (hadded : (g.remove r).added = g.added)
    (hremoved : (g.remove r).removed = g.removed.put r.id r) :
    (g.remove r).Nets schema stored x before ((Change.remove r).held schema x now) := by
  have hstored := mem_stored_of_visible hr hnone
  have hkept : (g.remove r).kept schema x before =
      if x ∈ r.columns schema then none else g.kept schema x before := by
    refine kept_put hremoved fun a ha => ?_
    obtain ⟨hmem, hid⟩ := h.changed.removed ha
    exact hids a hmem r hstored hid
  refine
    { changed := h.changed.remove (.inl hstored)
      apart := fun a ha b hb => h.apart a (mem_added_remove ha) b (mem_visible_remove hb)
      cleared := fun a ha hxa => by
        rw [hkept, h.cleared a (mem_added_remove ha) hxa]
        exact ite_self _
      left := ?_ }
  by_cases hx : x ∈ r.columns schema
  · have hnew : ∀ a ∈ (g.remove r).added, x ∉ a.columns schema := by
      rw [hadded]
      exact fun a ha => h.not_added hr hx ha (hnone a ha)
    rw [left_of_not_added hnew, hkept, if_pos hx]
    exact (if_pos hx).symm
  · unfold GraphTx.left
    rw [hadded, hkept, if_neg hx]
    exact h.left.trans (if_neg hx).symm

theorem Nets.remove (h : g.Nets schema stored x before now)
    (hids : ∀ r ∈ stored, ∀ r' ∈ stored, r.id = r'.id → r = r') (hr : r ∈ g.visible stored) :
    (g.remove r).Nets schema stored x before ((Change.remove r).held schema x now) := by
  obtain ⟨⟨b, hb, hid⟩, hadded, hremoved⟩ | ⟨hnone, hadded, hremoved⟩ := remove_cases g r
  · obtain rfl := h.changed.ids hids b (mem_visible.mpr (.inr hb)) r hr hid
    exact h.remove_added hids hb hadded hremoved
  · exact h.remove_stored hids hr hnone hadded hremoved

theorem Nets.make (h : g.Nets schema stored x before now)
    (hids : ∀ r ∈ stored, ∀ r' ∈ stored, r.id = r'.id → r = r') {c : Change}
    (hallowed : c.Allowed schema (g.visible stored))
    (hheld : ∀ r, c = .add r → x ∈ r.columns schema → before.isSome → ∃ a ∈ stored, x ∈ a.columns schema) :
    (c.make g).Nets schema stored x before (c.held schema x now) ∧
      (c.make g).visible stored = c.visible (g.visible stored) := by
  cases c with
  | add r => exact ⟨h.add hids hallowed (hheld r rfl), visible_add stored g r⟩
  | remove r => exact ⟨h.remove hids hallowed, h.changed.visible_remove hids hallowed⟩

/-- Whatever changes a transaction makes, a commit will leave what they leave one after another. -/
theorem Nets.foldl_make {changes : List Change} (h : g.Nets schema stored x before now)
    (hids : ∀ r ∈ stored, ∀ r' ∈ stored, r.id = r'.id → r = r')
    (hallowed : StepwiseAllowed schema (g.visible stored) changes)
    (hheld : ∀ r, .add r ∈ changes → x ∈ r.columns schema → before.isSome →
      ∃ a ∈ stored, x ∈ a.columns schema) :
    (changes.foldl Change.make g).Nets schema stored x before (changes.foldl (Change.held schema x) now) := by
  induction changes generalizing g now with
  | nil => exact h
  | cons c cs ih =>
    obtain ⟨hc, hcs⟩ := hallowed
    obtain ⟨hmade, hvisible⟩ := h.make hids hc fun r hr => hheld r (hr ▸ List.mem_cons_self)
    exact ih hmade (hvisible ▸ hcs) fun r hr => hheld r (List.mem_cons_of_mem _ hr)

end

end GraphTx

end RowGraph
