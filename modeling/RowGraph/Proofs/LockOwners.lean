import RowGraph.Proofs.StoredColumns

/-!
# Who owns a lock

`Lockers.owner?` is the transaction that a locker has a target locked for.  While no lease has ended a
lock can be taken only by its owner (`owner?_of_write`), taking it makes the owner so
(`owner?_write`), and releasing the locks of one transaction leaves those of the others alone
(`owner?_release`).  What an owner has asked for grows by the locks that it takes and ends with its release
(`requests_write`, `requests_release`), and a check looks at all of it (`check_eq_ok`).
-/

namespace RowGraph

namespace LockTable

variable {t t' : LockTable} {time lease : Nanos} {owner n : Nat} {target x : LockTarget}

/-- The transaction that a target is locked for. -/
def owner? (t : LockTable) (target : LockTarget) : Option Nat :=
  (t.held.get? target).map LockRecord.owner

theorem write_eq_ok (h : t.write time lease owner target = .ok t') :
    t.holder? time owner target = none ∧ t'.held = t.held.put target ⟨owner, time + lease⟩ := by
  unfold write at h
  split at h
  · cases h
  · rename_i hnone
    obtain rfl := Except.ok.inj h
    exact ⟨hnone, rfl⟩

theorem owner?_write (h : t.write time lease owner target = .ok t') (x : LockTarget) :
    t'.owner? x = if x = target then some owner else t.owner? x := by
  unfold owner?
  rw [(write_eq_ok h).2, SortedMap.get?_put]
  split <;> rfl

/-- A lock whose lease has not ended is taken by its owner or by nobody. -/
theorem owner?_of_write (hlast : ∀ r ∈ t.held.values, time < r.expires)
    (h : t.write time lease owner target = .ok t') (hn : t.owner? target = some n) : n = owner := by
  obtain ⟨r, hr, rfl⟩ := Option.map_eq_some_iff.mp hn
  have hholder := (write_eq_ok h).1
  have htime : time < r.expires := hlast r (SortedMap.mem_values_iff.mpr ⟨target, hr⟩)
  unfold holder? at hholder
  rw [hr] at hholder
  refine Decidable.byContradiction fun hne => ?_
  simp [hne, htime] at hholder

theorem get?_foldl_erase {owned : LockTarget → Bool} (hx : owned x = false) (asked : List LockTarget)
    (held : SortedMap LockTarget LockRecord) :
    (asked.foldl (fun held target => if owned target then held.erase target else held) held).get? x =
      held.get? x := by
  induction asked generalizing held with
  | nil => rfl
  | cons target asked ih =>
    rw [List.foldl_cons, ih]
    split
    · rename_i howned
      rw [SortedMap.get?_erase, if_neg]
      rintro rfl
      rw [hx] at howned
      cases howned
    · rfl

/-- The locks of others are not released. -/
theorem held_release {r : LockRecord} (hr : t.held.get? x = some r) (hne : r.owner ≠ owner) :
    (t.release owner).held.get? x = some r := by
  unfold release
  dsimp only
  rw [get?_foldl_erase, hr]
  rw [hr]
  exact beq_false_of_ne hne

theorem owner?_release (hn : t.owner? x = some n) (hne : n ≠ owner) :
    (t.release owner).owner? x = some n := by
  obtain ⟨r, hr, rfl⟩ := Option.map_eq_some_iff.mp hn
  unfold owner?
  rw [held_release hr hne]
  rfl

/-! ### What is held and what was asked for -/

theorem holder?_eq_some : t.holder? time owner target = some n ↔
    ∃ r, t.held.get? target = some r ∧ r.owner ≠ owner ∧ time < r.expires ∧ r.owner = n := by
  unfold holder?
  cases t.held.get? target with
  | none => simp
  | some r =>
    by_cases h : r.owner ≠ owner ∧ time < r.expires
    · simp [h]
    · simp only [if_neg h, Option.some.injEq, exists_eq_left']
      constructor
      · intro hn
        cases hn
      · intro hn
        exact absurd ⟨hn.1, hn.2.1⟩ h

theorem expires_le_of_write (h : t.write time lease owner target = .ok t') {r : LockRecord}
    (hr : t.held.get? target = some r) (hne : r.owner ≠ owner) : r.expires ≤ time := by
  refine Decidable.byContradiction fun hlt => ?_
  have hholder : t.holder? time owner target = some r.owner :=
    holder?_eq_some.mpr ⟨r, hr, hne, Nat.lt_of_not_le hlt, rfl⟩
  rw [(write_eq_ok h).1] at hholder
  cases hholder

/-- A lock of another owner is taken over only when its lease has ended. -/
theorem held_write (h : t.write time lease owner target = .ok t') {r : LockRecord}
    (hr : t.held.get? x = some r) (hne : r.owner ≠ owner) :
    t'.held.get? x = some r ∨ r.expires ≤ time := by
  rw [(write_eq_ok h).2, SortedMap.get?_put]
  split
  · rename_i hx
    subst hx
    exact .inr (expires_le_of_write h hr hne)
  · exact .inl hr

theorem requests_write (h : t.write time lease owner target = .ok t') :
    x ∈ t'.requests n ↔ x ∈ t.requests n ∨ n = owner ∧ x = target := by
  unfold write at h
  split at h
  · cases h
  · obtain rfl := Except.ok.inj h
    unfold requests
    rw [SortedMap.get?_put]
    by_cases ho : n = owner
    · subst ho
      rw [if_pos rfl, Option.getD_some]
      by_cases hc : ((t.requested.get? n).getD []).contains target = true
      · rw [if_pos hc]
        rw [List.contains_iff_mem] at hc
        constructor
        · exact Or.inl
        · rintro (hx | ⟨-, rfl⟩)
          · exact hx
          · exact hc
      · rw [if_neg hc, List.mem_append, List.mem_singleton]
        simp
    · rw [if_neg ho]
      simp [ho]

theorem requests_release (t : LockTable) (owner n : Nat) :
    (t.release owner).requests n = if n = owner then [] else t.requests n := by
  unfold requests release
  rw [SortedMap.get?_erase]
  split <;> rfl

theorem get?_foldl_erase_of_mem {owned : LockTarget → Bool} (hx : owned x = true) {asked : List LockTarget}
    (hmem : x ∈ asked) (held : SortedMap LockTarget LockRecord) :
    (asked.foldl (fun held target => if owned target then held.erase target else held) held).get? x =
      none := by
  -- Once erased the target stays away, and it is erased when its turn comes.
  have hstays (asked : List LockTarget) (held : SortedMap LockTarget LockRecord) (h : held.get? x = none) :
      (asked.foldl (fun held target => if owned target then held.erase target else held) held).get? x =
        none := by
    induction asked generalizing held with
    | nil => exact h
    | cons target asked ih =>
      refine ih _ ?_
      dsimp only
      split
      · rw [SortedMap.get?_erase, h, ite_self]
      · exact h
  induction asked generalizing held with
  | nil => cases hmem
  | cons target asked ih =>
    rcases List.mem_cons.mp hmem with rfl | hmem
    · rw [List.foldl_cons, if_pos hx]
      exact hstays _ _ (by rw [SortedMap.get?_erase, if_pos rfl])
    · exact ih hmem _

/-- Releasing takes away what its owner has asked for and still holds. -/
theorem get?_release (hasked : ∀ r, t.held.get? x = some r → x ∈ t.requests r.owner) (r : LockRecord) :
    (t.release owner).held.get? x = some r ↔ t.held.get? x = some r ∧ r.owner ≠ owner := by
  unfold release
  dsimp only
  cases hr : t.held.get? x with
  | none =>
    rw [get?_foldl_erase (by rw [hr]), hr]
    simp
  | some r' =>
    by_cases ho : r'.owner = owner
    · have hmem : x ∈ t.requests owner := ho ▸ hasked r' hr
      rw [get?_foldl_erase_of_mem (by rw [hr]; simpa using ho) hmem]
      constructor
      · intro h
        cases h
      · rintro ⟨h, hne⟩
        cases h
        exact absurd ho hne
    · rw [get?_foldl_erase (by rw [hr]; simpa using ho), hr]
      constructor
      · intro h
        cases h
        exact ⟨rfl, ho⟩
      · exact And.left

theorem check_eq_ok : t.check time owner = .ok () ↔
    ∀ x ∈ t.requests owner, ∃ r, t.held.get? x = some r ∧ r.owner = owner ∧ time < r.expires := by
  have howns (x : LockTarget) : t.owns time owner x = true ↔
      ∃ r, t.held.get? x = some r ∧ r.owner = owner ∧ time < r.expires := by
    unfold owns
    cases t.held.get? x with
    | none => simp
    | some r => simp
  unfold check
  cases hf : (t.requests owner).find? fun target => !t.owns time owner target with
  | none =>
    simp only [true_iff]
    intro x hx
    have := List.find?_eq_none.mp hf x hx
    exact (howns x).mp (by simpa using this)
  | some x =>
    have hx := List.find?_some hf
    have hmem := List.mem_of_find?_eq_some hf
    simp only [reduceCtorEq, false_iff]
    intro hall
    rw [(howns x).mpr (hall x hmem)] at hx
    cases hx

end LockTable

namespace Lockers

variable {l l' : Lockers} {time lease : Nanos} {name other : String} {owner n : Nat}
  {target x : LockTarget}

/-- The transaction that a locker has a target locked for. -/
def owner? (l : Lockers) (name : String) (target : LockTarget) : Option Nat :=
  (l.table name).owner? target

/-- No lock that has not been released has outlived its lease. -/
def Lasting (l : Lockers) (time : Nanos) : Prop :=
  ∀ t ∈ l.values, ∀ r ∈ t.held.values, time < r.expires

instance (l : Lockers) (time : Nanos) : Decidable (l.Lasting time) :=
  inferInstanceAs (Decidable (∀ t ∈ l.values, ∀ r ∈ t.held.values, time < r.expires))

theorem Lasting.table (h : l.Lasting time) (name : String) :
    ∀ r ∈ (l.table name).held.values, time < r.expires := by
  unfold Lockers.table
  cases hl : l.get? name with
  | none => simp [LockTable.empty, SortedMap.values]
  | some t => exact h t (SortedMap.mem_values_iff.mpr ⟨name, hl⟩)

theorem table_put (l : Lockers) (name other : String) (t : LockTable) :
    Lockers.table (l.put name t) other = if other = name then t else l.table other := by
  unfold Lockers.table
  rw [SortedMap.get?_put]
  split <;> rfl

theorem write_eq (l : Lockers) (time lease : Nanos) (name : String) (owner : Nat) (target : LockTarget) :
    l.write time lease name owner target =
      ((l.table name).write time lease owner target).map (l.put name) := by
  unfold write
  cases (l.table name).write time lease owner target <;> rfl

theorem write_eq_ok (h : l.write time lease name owner target = .ok l') :
    ∃ t, (l.table name).write time lease owner target = .ok t ∧ l' = l.put name t := by
  unfold write at h
  cases ht : (l.table name).write time lease owner target with
  | error f =>
    rw [ht] at h
    cases h
  | ok t =>
    rw [ht] at h
    exact ⟨t, rfl, (Except.ok.inj h).symm⟩

theorem requests_write (h : l.write time lease name owner target = .ok l') (other : String) :
    x ∈ (l'.table other).requests n ↔
      x ∈ (l.table other).requests n ∨ other = name ∧ n = owner ∧ x = target := by
  obtain ⟨t, ht, rfl⟩ := write_eq_ok h
  rw [table_put]
  by_cases hname : other = name
  · subst hname
    rw [if_pos rfl, LockTable.requests_write ht]
    simp
  · rw [if_neg hname]
    simp [hname]

theorem owner?_write (h : l.write time lease name owner target = .ok l') (other : String)
    (x : LockTarget) :
    l'.owner? other x = if other = name ∧ x = target then some owner else l.owner? other x := by
  obtain ⟨t, ht, rfl⟩ := write_eq_ok h
  unfold owner?
  rw [table_put]
  by_cases hs : other = name
  · subst hs
    rw [if_pos rfl, LockTable.owner?_write ht]
    simp
  · rw [if_neg hs, if_neg (fun h => hs h.1)]

theorem owner?_of_write (hlast : l.Lasting time)
    (h : l.write time lease name owner target = .ok l') (hn : l.owner? name target = some n) :
    n = owner := by
  obtain ⟨t, ht, -⟩ := write_eq_ok h
  exact LockTable.owner?_of_write (hlast.table name) ht hn

theorem owner?_release (hn : l.owner? other x = some n) (hne : n ≠ owner) (name : String) :
    (l.release name owner).owner? other x = some n := by
  unfold owner? release
  rw [table_put]
  split
  · rename_i hs
    exact LockTable.owner?_release (hs ▸ hn) hne
  · exact hn

end Lockers

end RowGraph
