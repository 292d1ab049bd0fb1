import RowGraph.Proofs.Lookup
import RowGraph.GraphTx

/-!
# Local changes

`GraphTx.Edited` holds of the transactions that come about by adding relations and by removing
relations that are committed or were added before.  Every vertex of a change counts as modified, so at
a vertex that does not, nothing was added, and no committed relation is removed (`Edited.tracks`).

`GraphTx.Changed` asks for more: a relation is added under an id that no visible relation has, so that visible
relations keep having ids of their own (`Changed.ids`).

`GraphTx.EditedAtEnds` asks for less: what is removed has the ends of the stored relations with its id,
and need not be one of them.
-/

namespace RowGraph.GraphTx

variable {S T : Type} {g : GraphTx S T} {r : Relation} {v : VertexId} {committed : List Relation}

/-- The transaction has come about by adding relations and removing known ones. -/
inductive Edited (committed : List Relation) : GraphTx S T → Prop
  | unchanged {g : GraphTx S T} : g.added = [] → g.removed = .empty → Edited committed g
  | add {g : GraphTx S T} (r : Relation) : Edited committed g → Edited committed (g.add r)
  | remove {g : GraphTx S T} {r : Relation} : Edited committed g → r ∈ committed ∨ r ∈ g.added →
      Edited committed (g.remove r)

/-- The vertices of all added relations count as modified. -/
def Touched (g : GraphTx S T) : Prop :=
  ∀ r ∈ g.added, ∀ v, r.isIncident v = true → g.isLoaded v = false

/-- The vertices of all local changes count as modified, and what is removed was committed. -/
structure Tracks (committed : List Relation) (g : GraphTx S T) : Prop where
  added : ∀ r ∈ g.added, ∀ v, r.isIncident v = true → g.isLoaded v = false
  removed : ∀ id, g.isRemoved id = true → ∃ r ∈ committed, r.id = id ∧
    ∀ v, r.isIncident v = true → g.isLoaded v = false

theorem isLoaded_eq_false : g.isLoaded v = false ↔ (g.modified.get? v).isSome = true := by
  simp [isLoaded, SortedMap.contains]

theorem isLoaded_touch (g : GraphTx S T) (r : Relation) (v : VertexId) :
    (g.touch r).isLoaded v = false ↔ r.isIncident v = true ∨ g.isLoaded v = false := by
  simp only [isLoaded_eq_false, touch, Relation.isIncident, Bool.or_eq_true, beq_iff_eq]
  cases hv : r.inVertex with
  | none =>
    simp only [SortedMap.get?_put]
    by_cases h : v = r.outVertex
    · simp [h]
    · simp [h, Ne.symm h]
  | some w =>
    simp only [SortedMap.get?_put, Option.some.injEq]
    by_cases hw : v = w
    · simp [hw]
    · by_cases h : v = r.outVertex
      · simp [h]
      · simp [h, hw, Ne.symm h, Ne.symm hw]

theorem isLoaded_remove (g : GraphTx S T) (r : Relation) (v : VertexId) :
    (g.remove r).isLoaded v = false ↔ r.isIncident v = true ∨ g.isLoaded v = false := by
  rw [← isLoaded_touch]
  unfold remove isLoaded
  dsimp only
  split <;> rfl

/-- Local changes stay in the transaction, which keeps reading its store. -/
@[simp] theorem store_remove (g : GraphTx S T) (r : Relation) : (g.remove r).store = g.store := by
  unfold remove
  dsimp only
  split <;> rfl

@[simp] theorem store_add (g : GraphTx S T) (r : Relation) : (g.add r).store = g.store := rfl

/-- Removing a relation drops it from the added ones or notes it. -/
theorem remove_cases (g : GraphTx S T) (r : Relation) :
    ((∃ a ∈ g.added, a.id = r.id) ∧ (g.remove r).added = g.added.filter (fun a => a.id != r.id) ∧
        (g.remove r).removed = g.removed) ∨
      (∀ a ∈ g.added, a.id ≠ r.id) ∧ (g.remove r).added = g.added ∧
        (g.remove r).removed = g.removed.put r.id r := by
  unfold remove
  dsimp only
  split
  · rename_i hkept
    refine .inr ⟨fun a ha he => ?_, rfl, rfl⟩
    have hall := List.length_filter_eq_length_iff.mp hkept a ha
    simp [he] at hall
  · rename_i hkept
    refine .inl ⟨?_, rfl, rfl⟩
    refine Decidable.byContradiction fun hnone => ?_
    refine hkept (List.length_filter_eq_length_iff.mpr fun a ha => ?_)
    simpa using fun he => hnone ⟨a, ha, he⟩

theorem mem_added_remove {a : Relation} (h : a ∈ (g.remove r).added) : a ∈ g.added := by
  obtain ⟨-, hadded, -⟩ | ⟨-, hadded, -⟩ := remove_cases g r
  · rw [hadded] at h
    exact (List.mem_filter.mp h).1
  · rwa [hadded] at h

/-- What counts as removed after one more removal counted before or has the id of what was removed. -/
theorem isRemoved_remove {id : RelationId} (h : (g.remove r).isRemoved id = true) :
    g.isRemoved id = true ∨ id = r.id ∧ ∀ a ∈ g.added, a.id ≠ r.id := by
  unfold isRemoved at h ⊢
  obtain ⟨-, -, hremoved⟩ | ⟨hnone, -, hremoved⟩ := remove_cases g r
  · rw [hremoved] at h
    exact .inl h
  · rw [hremoved] at h
    simp only [SortedMap.contains, SortedMap.get?_put] at h
    split at h
    · rename_i he
      exact .inr ⟨he, hnone⟩
    · exact .inl h

theorem isRemoved_of_empty (h : g.removed = .empty) (id : RelationId) : g.isRemoved id = false := by
  unfold isRemoved
  rw [h]
  rfl

theorem touched_of_nil (h : g.added = []) : g.Touched := by
  intro r hr
  rw [h] at hr
  cases hr

theorem Touched.add (h : g.Touched) (r : Relation) : (g.add r).Touched := by
  intro a ha v hv
  rcases List.mem_append.mp ha with ha | ha
  · exact (isLoaded_touch g r v).mpr (.inr (h a ha v hv))
  · rw [List.mem_singleton.mp ha] at hv
    exact (isLoaded_touch g r v).mpr (.inl hv)

theorem Touched.remove (h : g.Touched) (r : Relation) : (g.remove r).Touched := by
  intro a ha v hv
  exact (isLoaded_remove g r v).mpr (.inr (h a (mem_added_remove ha) v hv))

/-- Nothing was added at a vertex without local changes. -/
theorem Touched.addedAt_eq_nil (h : g.Touched) (hv : g.isLoaded v = true) : g.addedAt v = [] := by
  refine List.filter_eq_nil_iff.mpr fun r hr hi => ?_
  rw [h r hr v hi] at hv
  cases hv

theorem Tracks.add (h : g.Tracks committed) (r : Relation) : (g.add r).Tracks committed where
  added := Touched.add h.added r
  removed := by
    intro id hid
    obtain ⟨a, ha, he, hmod⟩ := h.removed id hid
    exact ⟨a, ha, he, fun v hv => (isLoaded_touch g r v).mpr (.inr (hmod v hv))⟩

theorem Tracks.remove (h : g.Tracks committed) (hr : r ∈ committed ∨ r ∈ g.added) :
    (g.remove r).Tracks committed where
  added := Touched.remove h.added r
  removed := by
    intro id hid
    rcases isRemoved_remove hid with hold | ⟨rfl, hnone⟩
    · obtain ⟨a, ha, he, hmod⟩ := h.removed id hold
      exact ⟨a, ha, he, fun v hv => (isLoaded_remove g r v).mpr (.inr (hmod v hv))⟩
    · exact ⟨r, hr.resolve_right fun hm => hnone r hm rfl, rfl,
        fun v hv => (isLoaded_remove g r v).mpr (.inl hv)⟩

theorem Edited.tracks (h : Edited committed g) : g.Tracks committed := by
  induction h with
  | unchanged hadded hremoved =>
    exact ⟨touched_of_nil hadded, fun id hid => absurd hid (by simp [isRemoved_of_empty hremoved])⟩
  | add r _ ih => exact ih.add r
  | remove _ hr ih => exact ih.remove hr

/-- Nothing was added at a vertex without local changes. -/
theorem Tracks.addedAt_eq_nil (h : g.Tracks committed) (hv : g.isLoaded v = true) : g.addedAt v = [] :=
  Touched.addedAt_eq_nil h.added hv

/-- No committed relation is removed at a vertex without local changes. -/
theorem Tracks.not_removed (h : g.Tracks committed) (hv : g.isLoaded v = true)
    (hids : ∀ r ∈ committed, ∀ r' ∈ committed, r.id = r'.id → r = r') (hr : r ∈ committed)
    (hi : r.isIncident v = true) : g.isRemoved r.id = false := by
  cases hrem : g.isRemoved r.id with
  | false => rfl
  | true =>
    obtain ⟨a, ha, he, hmod⟩ := h.removed _ hrem
    obtain rfl := hids a ha r hr he
    rw [hmod v hi] at hv
    cases hv

/-! ## Removals by the ends -/

/-- The transaction has come about by adding relations, and by removing relations with the ends of all
those under their id that are stored. -/
inductive EditedAtEnds (stored : Relation → Prop) : GraphTx S T → Prop
  | unchanged {g : GraphTx S T} : g.added = [] → g.removed = .empty → EditedAtEnds stored g
  | add {g : GraphTx S T} (r : Relation) : EditedAtEnds stored g → EditedAtEnds stored (g.add r)
  | remove {g : GraphTx S T} {r : Relation} : EditedAtEnds stored g →
      (∀ a, stored a → a.id = r.id → a.outVertex = r.outVertex ∧ a.inVertex = r.inVertex) →
      EditedAtEnds stored (g.remove r)

theorem EditedAtEnds.touched {stored : Relation → Prop} (h : EditedAtEnds stored g) : g.Touched := by
  induction h with
  | unchanged hadded _ => exact touched_of_nil hadded
  | add r _ ih => exact ih.add r
  | remove _ _ ih => exact ih.remove _

/-- No stored relation is removed at a vertex without local changes. -/
theorem EditedAtEnds.not_removed {stored : Relation → Prop} (h : EditedAtEnds stored g)
    (hv : g.isLoaded v = true) (hr : stored r) (hi : r.isIncident v = true) :
    g.isRemoved r.id = false := by
  induction h with
  | unchanged _ hremoved => exact isRemoved_of_empty hremoved r.id
  | @add g a _ ih =>
    refine ih ?_
    rw [← Bool.not_eq_false] at hv ⊢
    exact fun hl => hv ((isLoaded_touch g a v).mpr (.inr hl))
  | @remove g a _ hends ih =>
    rw [← Bool.not_eq_false, isLoaded_remove, not_or] at hv
    obtain ⟨hincident, hloaded⟩ := hv
    rw [← Bool.not_eq_true]
    intro hremoved
    rcases isRemoved_remove hremoved with hold | ⟨hid, -⟩
    · rw [ih ((Bool.not_eq_false _).mp hloaded)] at hold
      cases hold
    · obtain ⟨hout, hinto⟩ := hends r hr hid
      exact hincident (by rwa [Relation.isIncident, ← hout, ← hinto])

/-! ## Visible relations -/

/-- The relations a transaction can see: of those that are stored the ones that it did not remove, and
those that it added. -/
def visible (stored : List Relation) (g : GraphTx S T) : List Relation :=
  stored.filter (fun r => !g.isRemoved r.id) ++ g.added

variable {stored : List Relation}

theorem mem_visible : r ∈ g.visible stored ↔ r ∈ stored ∧ g.isRemoved r.id = false ∨ r ∈ g.added := by
  simp [visible]

/-- The transaction has come about by adding relations with free ids and removing known ones. -/
inductive Changed (allowed : Relation → Prop) (stored : List Relation) : GraphTx S T → Prop
  | unchanged {g : GraphTx S T} : g.added = [] → g.removed = .empty → Changed allowed stored g
  | add {g : GraphTx S T} {r : Relation} : Changed allowed stored g → allowed r →
      (∀ a ∈ g.visible stored, a.id ≠ r.id) → Changed allowed stored (g.add r)
  | remove {g : GraphTx S T} {r : Relation} : Changed allowed stored g → r ∈ stored ∨ r ∈ g.added →
      Changed allowed stored (g.remove r)

variable {allowed : Relation → Prop}

theorem Changed.edited (h : Changed allowed stored g) : Edited stored g := by
  induction h with
  | unchanged hadded hremoved => exact .unchanged hadded hremoved
  | add _ _ _ ih => exact ih.add _
  | remove _ hr ih => exact ih.remove hr

theorem mem_visible_remove (h : r ∈ (g.remove r').visible stored) : r ∈ g.visible stored := by
  obtain ⟨-, hadded, hremoved⟩ | ⟨-, hadded, hremoved⟩ := remove_cases g r'
  all_goals
    rw [mem_visible, isRemoved, hremoved, hadded] at h
  · refine mem_visible.mpr (h.imp id fun hr => (List.mem_filter.mp hr).1)
  · refine mem_visible.mpr (h.imp (fun hr => ⟨hr.1, ?_⟩) id)
    have hnot := hr.2
    simp only [SortedMap.contains, SortedMap.get?_put] at hnot
    split at hnot
    · cases hnot
    · exact hnot

/-- What is removed was stored, and stands under its id. -/
theorem Changed.removed (h : Changed allowed stored g) {id : RelationId} {r : Relation}
    (hr : g.removed.get? id = some r) : r ∈ stored ∧ r.id = id := by
  induction h with
  | unchanged hadded hremoved =>
    rw [hremoved] at hr
    cases hr
  | add _ _ _ ih => exact ih hr
  | @remove g a _ ha ih =>
    obtain ⟨-, -, hremoved⟩ | ⟨hnone, -, hremoved⟩ := remove_cases g a
    · rw [hremoved] at hr
      exact ih hr
    · rw [hremoved, SortedMap.get?_put] at hr
      split at hr
      · rename_i hid
        obtain rfl := Option.some.inj hr
        exact ⟨ha.resolve_right fun hm => hnone a hm rfl, hid.symm⟩
      · exact ih hr

theorem Changed.added (h : Changed allowed stored g) (hr : r ∈ g.added) : allowed r := by
  induction h with
  | unchanged hadded hremoved =>
    rw [hadded] at hr
    cases hr
  | add _ hallowed _ ih =>
    obtain hr | hr := List.mem_append.mp hr
    · exact ih hr
    · rwa [List.mem_singleton.mp hr]
  | remove _ _ ih => exact ih (mem_added_remove hr)

/-- Visible relations have ids of their own, if stored ones have. -/
theorem Changed.ids (h : Changed allowed stored g)
    (hids : ∀ r ∈ stored, ∀ r' ∈ stored, r.id = r'.id → r = r') :
    ∀ r ∈ g.visible stored, ∀ r' ∈ g.visible stored, r.id = r'.id → r = r' := by
  induction h with
  | @unchanged g hadded hremoved =>
    intro r hr r' hr' hid
    have hstored {a : Relation} (ha : a ∈ g.visible stored) : a ∈ stored := by
      obtain ⟨ha, -⟩ | ha := mem_visible.mp ha
      · exact ha
      · rw [hadded] at ha
        cases ha
    exact hids r (hstored hr) r' (hstored hr') hid
  | @add g a _ _ hfree ih =>
    have hmem {r : Relation} (hr : r ∈ (g.add a).visible stored) : r ∈ g.visible stored ∨ r = a := by
      obtain hr | hr := mem_visible.mp hr
      · exact .inl (mem_visible.mpr (.inl hr))
      · obtain hr | hr := List.mem_append.mp hr
        · exact .inl (mem_visible.mpr (.inr hr))
        · exact .inr (List.mem_singleton.mp hr)
    intro r hr r' hr' hid
    obtain hold | hnew := hmem hr <;> obtain hold' | hnew' := hmem hr'
    · exact ih r hold r' hold' hid
    · exact absurd (hnew' ▸ hid) (hfree r hold)
    · exact absurd (hnew ▸ hid.symm) (hfree r' hold')
    · rw [hnew, hnew']
  | remove _ _ ih =>
    exact fun r hr r' hr' hid => ih r (mem_visible_remove hr) r' (mem_visible_remove hr') hid

/-! ## What one more change does to the visible relations -/

theorem visible_add (stored : List Relation) (g : GraphTx S T) (r : Relation) :
    (g.add r).visible stored = g.visible stored ++ [r] :=
  (List.append_assoc ..).symm

/-- A stored relation that still counts has another id than any that was added. -/
theorem Changed.fresh (h : Changed allowed stored g) (hr : r ∈ g.added) {a : Relation} (ha : a ∈ stored)
    (hkept : g.isRemoved a.id = false) : a.id ≠ r.id := by
  induction h with
  | unchanged hadded hremoved =>
    rw [hadded] at hr
    cases hr
  | @add g b _ _ hfree ih =>
    obtain hr | hr := List.mem_append.mp hr
    · exact ih hr hkept
    · rw [List.mem_singleton.mp hr]
      exact hfree a (mem_visible.mpr (.inl ⟨ha, hkept⟩))
  | @remove g b _ _ ih =>
    unfold isRemoved at hkept ih
    obtain ⟨-, hadded, hremoved⟩ | ⟨-, hadded, hremoved⟩ := remove_cases g b <;>
      rw [hadded] at hr <;> rw [hremoved] at hkept
    · exact ih (List.mem_filter.mp hr).1 hkept
    · simp only [SortedMap.contains, SortedMap.get?_put] at hkept ih
      split at hkept
      · cases hkept
      · exact ih hr hkept

/-- No two relations that were added have the same id. -/
theorem Changed.pairwise_added (h : Changed allowed stored g) : g.added.Pairwise (·.id ≠ ·.id) := by
  induction h with
  | unchanged hadded _ =>
    rw [hadded]
    exact .nil
  | add _ _ hfree ih =>
    refine List.pairwise_append.mpr ⟨ih, List.pairwise_singleton .., fun a ha b hb => ?_⟩
    rw [List.mem_singleton.mp hb]
    exact hfree a (mem_visible.mpr (.inr ha))
  | @remove g r _ _ ih =>
    obtain ⟨-, hadded, -⟩ | ⟨-, hadded, -⟩ := remove_cases g r
    · rw [hadded]
      exact ih.filter _
    · rwa [hadded]

/-- A visible relation is stored, if none with its id was added. -/
theorem mem_stored_of_visible (hr : r ∈ g.visible stored) (hnone : ∀ a ∈ g.added, a.id ≠ r.id) :
    r ∈ stored := by
  obtain ⟨hr, -⟩ | hr := mem_visible.mp hr
  · exact hr
  · exact absurd rfl (hnone r hr)

/-- A visible relation that is removed is visible no more, and all others are as they were. -/
theorem Changed.visible_remove (h : Changed allowed stored g)
    (hids : ∀ r ∈ stored, ∀ r' ∈ stored, r.id = r'.id → r = r') (hr : r ∈ g.visible stored) :
    (g.remove r).visible stored = (g.visible stored).filter (· ≠ r) := by
  have hsame {a : Relation} (ha : a ∈ g.visible stored) : a.id = r.id ↔ a = r :=
    ⟨h.ids hids a ha r hr, congrArg Relation.id⟩
  unfold visible
  rw [List.filter_append]
  obtain ⟨⟨b, hb, hid⟩, hadded, hremoved⟩ | ⟨hnone, hadded, hremoved⟩ := remove_cases g r
  · obtain rfl := (hsame (mem_visible.mpr (.inr hb))).mp hid
    unfold isRemoved
    rw [hadded, hremoved]
    congr 1
    · -- no stored relation that still counts has the id of one that was added
      refine (List.filter_eq_self.mpr fun a ha => ?_).symm
      obtain ⟨ha, hkept⟩ := List.mem_filter.mp ha
      have hne := h.fresh hb ha (by simpa [isRemoved] using hkept)
      simpa using fun he : a = b => hne (congrArg Relation.id he)
    · refine List.filter_congr fun a ha => ?_
      rw [Bool.eq_iff_iff, bne_iff_ne, decide_eq_true_eq]
      exact not_congr (hsame (mem_visible.mpr (.inr ha)))
  · have hstored := mem_stored_of_visible hr hnone
    unfold isRemoved
    rw [hadded, hremoved, List.filter_filter]
    congr 1
    · refine List.filter_congr fun a ha => ?_
      have hiff : a.id = r.id ↔ a = r := ⟨hids a ha r hstored, congrArg Relation.id⟩
      simp only [SortedMap.contains, SortedMap.get?_put, hiff]
      by_cases he : a = r <;> simp [he]
    · refine (List.filter_eq_self.mpr fun a ha => ?_).symm
      simpa using fun he : a = r => hnone a ha (congrArg Relation.id he)

end RowGraph.GraphTx
