import RowGraph.Proofs.Commits

/-!
# Transactions one after another

Transactions follow one another on one store: each adds and removes relations, and commits, rolls back or
is left.  `Reached` says what this comes to.  Every step leaves the store with the entries of the relations
committed so far and of no others: `InOrder`, which holds of all that is reached (`Reached.inOrder`).
-/

namespace RowGraph

theorem Settings.validate_steady : Settings.steady.validate = .ok () :=
  Outcome.eq_ok_of_toOption (by decide +kernel)

theorem Settings.patient_of_validate {settings : Settings} (h : settings.validate = .ok ()) :
    settings.retry.readWaitMillis ≠ 0 ∧ settings.retry.writeWaitMillis ≠ 0 := by
  unfold validate problem? at h
  grind

namespace GraphTx

/-- What transactions on the store with a name have come to, if it was empty at first: the state, the
relations committed so far and the last transaction.  It adds relations under ids that no visible relation
has, and removes what is stored or was added.  What it commits has no column in common. -/
inductive Reached (features : Features) (schema : Schema) (name : String) (allowed : Relation → Prop) :
    Local → List Relation → GraphTx StoreHandle TxHandle → Prop
  | first {s s' : Local} {g : GraphTx StoreHandle TxHandle} {settings : Settings} :
      s.memory.Sound → s.memory.contents name = .empty →
      (start (Local.backend features) name settings).exec s = (.ok g, s') →
      Reached features schema name allowed s' [] g
  | next {s s' : Local} {R : List Relation} {g g' : GraphTx StoreHandle TxHandle} {settings : Settings} :
      Reached features schema name allowed s R g →
      (start (Local.backend features) name settings).exec s = (.ok g', s') →
      Reached features schema name allowed s' R g'
  | add {s : Local} {R : List Relation} {g : GraphTx StoreHandle TxHandle} {r : Relation} :
      Reached features schema name allowed s R g → allowed r → (∀ a ∈ g.visible R, a.id ≠ r.id) →
      Reached features schema name allowed s R (g.add r)
  | remove {s : Local} {R : List Relation} {g : GraphTx StoreHandle TxHandle} {r : Relation} :
      Reached features schema name allowed s R g → r ∈ R ∨ r ∈ g.added →
      Reached features schema name allowed s R (g.remove r)
  | committed {s s' : Local} {R : List Relation} {g g' : GraphTx StoreHandle TxHandle} :
      Reached features schema name allowed s R g → Unshared schema (g.visible R) →
      (commit (Local.backend features) schema).exec (g, s) = (.ok (), (g', s')) →
      Reached features schema name allowed s' (g.visible R) g'
  | refused {s s' : Local} {R : List Relation} {g g' : GraphTx StoreHandle TxHandle} {f : Failure} :
      Reached features schema name allowed s R g →
      (commit (Local.backend features) schema).exec (g, s) = (.error f, (g', s')) →
      Reached features schema name allowed s' R g'
  | rolledBack {s s' : Local} {R : List Relation} {g g' : GraphTx StoreHandle TxHandle} {o : Outcome Unit} :
      Reached features schema name allowed s R g →
      (rollback (Local.backend features)).exec (g, s) = (o, (g', s')) →
      Reached features schema name allowed s' R g'

/-- The store holds the entries of the relations, which have ids and columns of their own, and the
transaction has come about from there. -/
structure InOrder (schema : Schema) (name : String) (allowed : Relation → Prop) (s : Local)
    (R : List Relation) (g : GraphTx StoreHandle TxHandle) : Prop where
  holds : Holds schema R (s.memory.contents name)
  unshared : Unshared schema R
  ids : ∀ r ∈ R, ∀ r' ∈ R, r.id = r'.id → r = r'
  within : ∀ r ∈ R, allowed r
  live : g.Live s.memory
  storeName : g.storeName = name
  changed : g.Changed allowed R

variable {features : Features} {schema : Schema} {name : String} {allowed : Relation → Prop}
  {s s' : Local} {R : List Relation} {g g' : GraphTx StoreHandle TxHandle}

/-- A transaction starts with what is stored and no change. -/
theorem start_spec {settings : Settings} (hsound : s.memory.Sound)
    (h : (start (Local.backend features) name settings).exec s = (.ok g, s')) :
    s'.memory.contents name = s.memory.contents name ∧ g.Live s'.memory ∧ g.storeName = name ∧
      g.added = [] ∧ g.removed = .empty := by
  cases hvalid : settings.validate with
  | error f =>
    rw [start_error hvalid] at h
    cases h
  | ok _ =>
    rw [start_ok features hvalid] at h
    obtain ⟨hg, rfl⟩ := Prod.mk.inj h
    obtain rfl := Except.ok.inj hg
    exact ⟨Memory.contents_store hsound name name, live_fresh hsound name settings, rfl, rfl, rfl⟩

theorem InOrder.first {settings : Settings} (hsound : s.memory.Sound)
    (hempty : s.memory.contents name = .empty)
    (h : (start (Local.backend features) name settings).exec s = (.ok g, s')) :
    InOrder schema name allowed s' [] g := by
  obtain ⟨hcontents, hlive, hname, hadded, hremoved⟩ := start_spec hsound h
  exact {
    holds := by
      rw [hcontents, hempty]
      exact holds_nil schema
    unshared := by simp [Unshared]
    ids := by simp
    within := by simp
    live := hlive
    storeName := hname
    changed := .unchanged hadded hremoved }

theorem InOrder.next (h : InOrder schema name allowed s R g) {settings : Settings}
    (hstart : (start (Local.backend features) name settings).exec s = (.ok g', s')) :
    InOrder schema name allowed s' R g' := by
  obtain ⟨hcontents, hlive, hname, hadded, hremoved⟩ := start_spec h.live.sound hstart
  exact { h with
    holds := by
      rw [hcontents]
      exact h.holds
    live := hlive
    storeName := hname
    changed := .unchanged hadded hremoved }

theorem InOrder.add (h : InOrder schema name allowed s R g) {r : Relation} (hallowed : allowed r)
    (hfree : ∀ a ∈ g.visible R, a.id ≠ r.id) : InOrder schema name allowed s R (g.add r) :=
  { h with
    live := h.live.add r
    storeName := h.storeName
    changed := h.changed.add hallowed hfree }

theorem storeName_remove (g : GraphTx StoreHandle TxHandle) (r : Relation) :
    (g.remove r).storeName = g.storeName := by
  unfold GraphTx.remove
  dsimp only
  split <;> rfl

theorem InOrder.remove (h : InOrder schema name allowed s R g) {r : Relation}
    (hr : r ∈ R ∨ r ∈ g.added) : InOrder schema name allowed s R (g.remove r) :=
  { h with
    live := h.live.remove r
    storeName := (g.storeName_remove r).trans h.storeName
    changed := h.changed.remove hr }

/-- A transaction that has ended leaves the store in order. -/
theorem InOrder.ended (h : InOrder schema name allowed s R g) {m : Memory} (hsound : m.Sound)
    (hstores : m.stores = s.memory.stores) (hcontents : m.contents name = s.memory.contents name) :
    InOrder schema name allowed { s with memory := m } R g.ended :=
  { h with
    holds := by
      rw [hcontents]
      exact h.holds
    live := h.live.ended hsound fun other n hn => by rw [hstores]; exact hn
    storeName := h.storeName
    changed := .unchanged rfl rfl }

theorem InOrder.refused (h : InOrder schema name allowed s R g) {f : Failure}
    (hcommit : (commit (Local.backend features) schema).exec (g, s) = (.error f, (g', s'))) :
    InOrder schema name allowed s' R g' := by
  obtain ⟨f', hfails⟩ | ⟨tx, batch, -, hok⟩ := commit_cases features schema h.live
  · rw [hfails] at hcommit
    obtain ⟨rfl, rfl⟩ := Prod.mk.inj (Prod.mk.inj hcommit).2
    exact h
  · rw [hok] at hcommit
    cases hcommit

theorem InOrder.rolledBack (h : InOrder schema name allowed s R g) {o : Outcome Unit}
    (hrollback : (rollback (Local.backend features)).exec (g, s) = (o, (g', s'))) :
    InOrder schema name allowed s' R g' := by
  obtain ⟨f, hfails⟩ | ⟨o', tx, hends⟩ := rollback_cases features g s
  · rw [hfails] at hrollback
    obtain ⟨rfl, rfl⟩ := Prod.mk.inj (Prod.mk.inj hrollback).2
    exact h
  · rw [hends] at hrollback
    obtain ⟨rfl, rfl⟩ := Prod.mk.inj (Prod.mk.inj hrollback).2
    obtain ⟨hsound, hstores, hcontents⟩ := Memory.endTx_keeps h.live.sound tx
    exact h.ended hsound hstores (hcontents name)

/-- A commit leaves the entries of the relations that were visible. -/
theorem InOrder.committed (h : InOrder schema name allowed s R g) (hvisible : Unshared schema (g.visible R))
    (hcommit : (commit (Local.backend features) schema).exec (g, s) = (.ok (), (g', s'))) :
    InOrder schema name allowed s' (g.visible R) g' := by
  obtain ⟨f, hfails⟩ | ⟨tx, batch, hbatch, hok⟩ := commit_cases features schema h.live
  · rw [hfails] at hcommit
    cases hcommit
  · rw [hok] at hcommit
    obtain ⟨rfl, rfl⟩ := Prod.mk.inj (Prod.mk.inj hcommit).2
    have hwrites := Memory.writes_mutateMany h.live.sound batch
    have hrow := row_mutateMany h.live.sound hbatch
    rw [h.storeName] at hrow
    exact {
      holds := h.holds.commit h.unshared h.ids (fun id r hr => h.changed.removed hr)
        (batch_eq_ok.mp hbatch).2.1 hvisible hrow
      unshared := hvisible
      ids := h.changed.ids h.ids
      within := fun r hr => by
        obtain ⟨hr, -⟩ | hr := mem_visible.mp hr
        · exact h.within r hr
        · exact h.changed.added hr
      live := h.live.ended ⟨hwrites.sound.opened, hwrites.sound.apart, hwrites.sound.blank⟩ hwrites.stores
      storeName := h.storeName
      changed := .unchanged rfl rfl }

/-- Whatever transactions do, the store is left in order. -/
theorem Reached.inOrder (h : Reached features schema name allowed s R g) :
    InOrder schema name allowed s R g := by
  induction h with
  | first hsound hempty hstart => exact .first hsound hempty hstart
  | next _ hstart ih => exact ih.next hstart
  | add _ hallowed hfree ih => exact ih.add hallowed hfree
  | remove _ hr ih => exact ih.remove hr
  | committed _ hvisible hcommit ih => exact ih.committed hvisible hcommit
  | refused _ hcommit ih => exact ih.refused hcommit
  | rolledBack _ hrollback ih => exact ih.rolledBack hrollback

/-- The state in which the first transaction on a store has started. -/
def started (name : String) : Local :=
  { Local.new with memory := ((Memory.new.store name).2.beginTx .none).2 }

theorem reached_started (features : Features) (schema : Schema) (name : String)
    (allowed : Relation → Prop) {settings : Settings} (h : settings.validate = .ok ()) :
    Reached features schema name allowed (started name) [] (fresh .new name settings) :=
  .first Memory.sound_new rfl (start_ok features h name .new)

end GraphTx

end RowGraph
