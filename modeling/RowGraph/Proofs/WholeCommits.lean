import RowGraph.Proofs.SeparateCommits

/-!
# Whole commits

A commit writes all changes of a transaction or none of them (`commit_whole`).  The batch is made before
anything is written, and is not made if one of the relations cannot be written (`batch_error`): then all is as
it was before, and the transaction is still open.  Else a column that was added holds what was added last, one
that was only removed holds nothing, and no other column of any store has changed (`wroteAll_mutateMany`); and
the transaction has ended.
-/

namespace RowGraph

open Layout (entriesFor Encodable)
open Committed (written)

namespace GraphTx

variable {S T : Type} {schema : Schema}

/-- The relations that a commit deletes and writes, in this order. -/
def affected (g : GraphTx S T) : List Relation := g.removed.values ++ g.added

/-- What a commit leaves in memory. -/
structure WroteAll (schema : Schema) (g : GraphTx S T) (m m' : Memory) : Prop where
  /-- Of the added relations that have a column the last one counts. -/
  added : ∀ before r after x value, g.added = before ++ r :: after →
    (x.key, ⟨x.column, value⟩) ∈ written schema r → (∀ a ∈ after, x ∉ a.columns schema) →
    m'.holds ⟨g.storeName, x⟩ = some value
  /-- A column that only removed relations have is cleared. -/
  removed : ∀ r ∈ g.removed.values, ∀ x ∈ r.columns schema, (∀ a ∈ g.added, x ∉ a.columns schema) →
    m'.holds ⟨g.storeName, x⟩ = none
  others : ∀ c, (c.store = g.storeName → ∀ r ∈ g.affected, c.target ∉ r.columns schema) →
    m'.holds c = m.holds c

variable {g : GraphTx S T} {x : LockTarget} {before : Option Bytes}

/-- Where the last relation was added that has a column, a commit leaves that relation. -/
theorem left_of_last {r : Relation} {earlier later : List Relation} (hadded : g.added = earlier ++ r :: later)
    (hr : x ∈ r.columns schema) (hlater : ∀ a ∈ later, x ∉ a.columns schema) :
    g.left schema x before = some r.storedBytes := by
  have hnone : later.reverse.find? (fun a => x ∈ a.columns schema) = none :=
    List.find?_eq_none.mpr fun a ha => by simpa using hlater a (List.mem_reverse.mp ha)
  unfold left
  rw [hadded, List.reverse_append, List.reverse_cons, List.find?_append, List.find?_append, hnone]
  simp [hr]

/-- What the batch of a transaction leaves in memory. -/
theorem wroteAll_mutateMany {m : Memory} (h : m.Sound) {batch : Batch} (hbatch : g.batch schema = .ok batch) :
    g.WroteAll schema m (m.mutateMany batch) where
  added earlier r later x value hadded hr hlater := by
    rw [holds_mutateMany h hbatch, if_pos rfl, value_of_written hr]
    exact left_of_last hadded (mem_columns.mpr ⟨value, hr⟩) hlater
  removed r hr x hx hnew := by
    rw [holds_mutateMany h hbatch, if_pos rfl, left_of_not_added hnew]
    exact if_pos ⟨r, hr, hx⟩
  others c hc := by
    rw [holds_mutateMany h hbatch]
    by_cases hstore : c.store = g.storeName
    · have hremoved : ¬ ∃ r ∈ g.removed.values, c.target ∈ r.columns schema := by
        rintro ⟨r, hr, hx⟩
        exact hc hstore r (List.mem_append_left _ hr) hx
      rw [if_pos hstore, left_of_not_added fun a ha => hc hstore a (List.mem_append_right _ ha)]
      exact if_neg hremoved
    · rw [if_neg hstore]

theorem exists_batch (h : ∀ r ∈ g.affected, Encodable schema r) : ∃ batch, g.batch schema = .ok batch :=
  ⟨_, batch_eq_ok.mpr
    ⟨fun r hr => Layout.exists_entriesFor_iff.mpr (h r (List.mem_append_left _ hr)),
      fun r hr => Layout.exists_entriesFor_iff.mpr (h r (List.mem_append_right _ hr)), rfl⟩⟩

/-- Without a batch there is a relation that cannot be written, for the same reason. -/
theorem batch_error {f : Failure} (h : g.batch schema = .error f) :
    ∃ r ∈ g.affected, entriesFor schema r = .error f := by
  have hfails (change : Mutation → Entry → Mutation) (rows : SortedMap Bytes Mutation) {r : Relation}
      (hr : (do
        let entries ← entriesFor schema r
        return mutateRows rows entries change : Outcome (SortedMap Bytes Mutation)) = .error f) :
      entriesFor schema r = .error f := by
    obtain he | ⟨entries, -, hmade⟩ := Outcome.bind_eq_error.mp hr
    · exact he
    · cases hmade
  unfold batch at h
  obtain hremoved | ⟨rows, -, h⟩ := Outcome.bind_eq_error.mp h
  · obtain ⟨r, hr, rows, he⟩ := Outcome.error_of_foldlM hremoved
    exact ⟨r, List.mem_append_left _ hr, hfails _ rows he⟩
  obtain hadded | ⟨rows, -, h⟩ := Outcome.bind_eq_error.mp h
  · obtain ⟨r, hr, rows, he⟩ := Outcome.error_of_foldlM hadded
    exact ⟨r, List.mem_append_right _ hr, hfails _ rows he⟩
  · split at h <;> cases h

/-- A transaction that has ended cannot be committed or rolled back. -/
theorem ended_refuses (features : Features) (schema : Schema) (g : GraphTx StoreHandle TxHandle) (s : Local) :
    (commit (Local.backend features) schema).exec (g.ended, s) = (.error isClosed, (g.ended, s)) ∧
      (rollback (Local.backend features)).exec (g.ended, s) = (.error isClosed, (g.ended, s)) := by
  refine ⟨commit_error (.inl rfl), ?_⟩
  unfold rollback
  refine (Act.exec_bind_ok (Act.exec_asks ..) _).trans ?_
  exact Act.exec_bind_error (Act.exec_ofOutcome ..) _

/-- A commit is all or nothing.  If a relation cannot be written the commit fails for the reason of such a one,
and nothing has changed.  Else it succeeds, has written all changes and nothing else, and the transaction has
ended. -/
theorem commit_whole (features : Features) (schema : Schema) {g : GraphTx StoreHandle TxHandle} {s : Local}
    {tx : TxHandle} (hsound : s.memory.Sound) (hopen : g.openTx = .ok tx)
    (hrunning : (s.memory.record tx).ended = false) (hvalid : g.settings.validate = .ok ()) :
    ((∃ r ∈ g.affected, ¬ Encodable schema r) →
      ∃ r ∈ g.affected, ∃ f, entriesFor schema r = .error f ∧
        (commit (Local.backend features) schema).exec (g, s) = (.error f, (g, s))) ∧
    ((∀ r ∈ g.affected, Encodable schema r) →
      ∃ s', (commit (Local.backend features) schema).exec (g, s) = (.ok (), (g.ended, s')) ∧
        g.WroteAll schema s.memory s'.memory ∧ g.ended.hasModifications = false ∧
        ∀ later, (commit (Local.backend features) schema).exec (g.ended, later) =
            (.error isClosed, (g.ended, later)) ∧
          (rollback (Local.backend features)).exec (g.ended, later) = (.error isClosed, (g.ended, later))) := by
  constructor
  · rintro ⟨r, hr, hnot⟩
    cases hbatch : g.batch schema with
    | ok batch =>
      obtain ⟨hremoved, hadded, -⟩ := batch_eq_ok.mp hbatch
      exact absurd (Layout.exists_entriesFor_iff.mp ((List.mem_append.mp hr).elim (hremoved r) (hadded r))) hnot
    | error f =>
      obtain ⟨r, hr, he⟩ := batch_error hbatch
      exact ⟨r, hr, f, he, commit_error (.inr ⟨⟨tx, hopen⟩, hbatch⟩)⟩
  · intro hall
    obtain ⟨batch, hbatch⟩ := exists_batch hall
    have hcommit : (commit (Local.backend features) schema).exec (g, s) = (.ok (), (g.ended, _)) :=
      commit_ok hsound hopen hrunning hbatch fun _ => (Settings.patient_of_validate hvalid).2
    have hwrote := wroteAll_mutateMany hsound hbatch
    -- the end of the transaction of the backend leaves what is stored
    exact ⟨_, hcommit, ⟨hwrote.added, hwrote.removed, hwrote.others⟩, rfl, ended_refuses features schema g⟩

end GraphTx

/-! ## A purchase, whole or not at all -/

namespace Purchase

/-- A transaction on the store in which vertex 1 owns vertex 2, with changes. -/
def changed (changes : List GraphTx.Change) : GraphTx StoreHandle TxHandle :=
  changes.foldl GraphTx.Change.make (.fresh before.memory "edgestore" .steady)

/-- The store with the transaction. -/
def opened : Local := { before with memory := ((before.memory.store "edgestore").2.beginTx .none).2 }

end Purchase

/-- The thing is sold and bought twice, and what is left is the last purchase.  With a relation of no type among
the changes nothing is written. -/
theorem GraphTx.commit_whole_purchase :
    (∃ s', (commit (Local.backend Memory.defaultFeatures) Purchase.schema).exec
          (Purchase.changed Purchase.changes, Purchase.opened) =
        (.ok (), ((Purchase.changed Purchase.changes).ended, s')) ∧
      s'.memory.holds ⟨"edgestore", Purchase.column⟩ = some (Purchase.owning ⟨9⟩).storedBytes) ∧
    ∃ f, (commit (Local.backend Memory.defaultFeatures) Purchase.schema).exec
        (Purchase.changed (Purchase.changes ++ [.add Purchase.untyped]), Purchase.opened) =
      (.error f, (Purchase.changed (Purchase.changes ++ [.add Purchase.untyped]), Purchase.opened)) := by
  have hlive : (fresh Purchase.before.memory "edgestore" .steady).Live Purchase.opened.memory :=
    live_fresh Purchase.sound_before "edgestore" .steady
  have hrunning : (Purchase.opened.memory.record ⟨2⟩).ended = false := by decide +kernel
  constructor
  · have hopen : (Purchase.changed Purchase.changes).openTx = .ok ⟨2⟩ := openTx_eq_ok.mpr (by decide +kernel)
    have hvalid : (Purchase.changed Purchase.changes).settings.validate = .ok () :=
      Outcome.eq_ok_of_toOption (by decide +kernel)
    have hentries : ∀ r ∈ (Purchase.changed Purchase.changes).affected,
        (entriesFor Purchase.schema r).toOption.isSome := by decide +kernel
    obtain ⟨s', hcommit, hwrote, -⟩ :=
      (commit_whole Memory.defaultFeatures Purchase.schema hlive.sound hopen hrunning hvalid).2
        fun r hr => Layout.exists_entriesFor_iff.mp ⟨_, Outcome.eq_ok_getD (hentries r hr) []⟩
    have hadded : (Purchase.changed Purchase.changes).added = [] ++ Purchase.owning ⟨9⟩ :: [] := by
      decide +kernel
    have hcolumn : (Purchase.column.key, ⟨Purchase.column.column, (Purchase.owning ⟨9⟩).storedBytes⟩) ∈
        written Purchase.schema (Purchase.owning ⟨9⟩) := by decide +kernel
    have hname : (Purchase.changed Purchase.changes).storeName = "edgestore" := by decide +kernel
    exact ⟨s', hcommit, hname ▸ hwrote.added _ _ _ _ _ hadded hcolumn (by simp)⟩
  · have hopen : (Purchase.changed (Purchase.changes ++ [.add Purchase.untyped])).openTx = .ok ⟨2⟩ :=
      openTx_eq_ok.mpr (by decide +kernel)
    have hvalid : (Purchase.changed (Purchase.changes ++ [.add Purchase.untyped])).settings.validate = .ok () :=
      Outcome.eq_ok_of_toOption (by decide +kernel)
    have hadded : Purchase.untyped ∈
        (Purchase.changed (Purchase.changes ++ [.add Purchase.untyped])).affected := by
      decide +kernel
    have huntyped : ¬ Encodable Purchase.schema Purchase.untyped := by
      rintro ⟨base, -, hbase, -⟩
      have hnone : Purchase.schema.type? Purchase.untyped.typeId = none := by decide +kernel
      rw [hnone] at hbase
      cases hbase
    obtain ⟨r, -, f, -, hfails⟩ :=
      (commit_whole Memory.defaultFeatures Purchase.schema hlive.sound hopen hrunning hvalid).1
        ⟨Purchase.untyped, hadded, huntyped⟩
    exact ⟨f, hfails⟩

end RowGraph
