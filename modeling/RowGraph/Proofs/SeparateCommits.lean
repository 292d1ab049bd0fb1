import RowGraph.Proofs.CommitRuns
import RowGraph.Proofs.NetChanges
import RowGraph.Proofs.SharedColumns

/-!
# One transaction or several

Changes may be made in one transaction or each in a transaction of its own.  A commit is told only the net
effect of the changes (`transact_ok`), and transactions of one change each leave what the changes leave one
after another (`transactEach_ok`), so both leave the same in every column of every store (`holds_transact`).

A transaction removes by id, writes all or nothing, and writes only the columns of its net effect.  So it does
make a difference if a relation cannot be written, if something else stands in a column that is taken and
given up, and if two stored relations have one id (`transact_differs`).
-/

namespace RowGraph

open Layout (entriesFor)

namespace GraphTx

variable {S T : Type} {schema : Schema} {x : LockTarget} {before : Option Bytes} {g : GraphTx S T}

/-! ## Transactions that commit -/

/-- A transaction on the store with a name that makes changes, one after another, and commits. -/
def transact {σ : Type} [Timed σ] [Metered σ] (b : Backend σ S T) (schema : Schema) (name : String)
    (settings : Settings) (changes : List Change) : Act σ Unit := do
  let g ← start b name settings
  Act.of fun s =>
    let done := (commit b schema).exec (changes.foldl Change.make g, s)
    (done.1, done.2.2)

/-- Transactions that follow each other and make one change each. -/
def transactEach {σ : Type} [Timed σ] [Metered σ] (b : Backend σ S T) (schema : Schema) (name : String)
    (settings : Settings) (changes : List Change) : Act σ Unit :=
  changes.forM fun c => transact b schema name settings [c]

/-- Changes touch nothing else of a transaction. -/
theorem foldl_make_eq (changes : List Change) (g : GraphTx S T) : ∃ added removed modified,
    changes.foldl Change.make g = { g with added := added, removed := removed, modified := modified } := by
  induction changes generalizing g with
  | nil => exact ⟨g.added, g.removed, g.modified, rfl⟩
  | cons c cs ih =>
    have hmake : ∃ added removed modified,
        c.make g = { g with added := added, removed := removed, modified := modified } := by
      cases c with
      | add r => exact ⟨_, _, _, rfl⟩
      | remove r =>
        show ∃ added removed modified, g.remove r = _
        unfold remove
        dsimp only
        split
        · exact ⟨_, _, _, rfl⟩
        · exact ⟨_, _, _, rfl⟩
    obtain ⟨added, removed, modified, hmake⟩ := hmake
    rw [List.foldl_cons, hmake]
    exact ih _

/-- What a transaction adds and removes comes from its changes. -/
theorem of_foldl_make {P : Relation → Prop} {changes : List Change} (hadded : ∀ r ∈ g.added, P r)
    (hremoved : ∀ r ∈ g.removed.values, P r) (h : ∀ c ∈ changes, P c.relation) :
    (∀ r ∈ (changes.foldl Change.make g).added, P r) ∧
      ∀ r ∈ (changes.foldl Change.make g).removed.values, P r := by
  induction changes generalizing g with
  | nil => exact ⟨hadded, hremoved⟩
  | cons c cs ih =>
    obtain ⟨hc, hcs⟩ := List.forall_mem_cons.mp h
    refine ih (fun r hr => ?_) (fun r hr => ?_) hcs
    · cases c with
      | add a =>
        obtain hr | hr := List.mem_append.mp hr
        · exact hadded r hr
        · exact List.mem_singleton.mp hr ▸ hc
      | remove a => exact hadded r (mem_added_remove hr)
    · cases c with
      | add a => exact hremoved r hr
      | remove a =>
        have hr : r ∈ (g.remove a).removed.values := hr
        obtain ⟨-, -, heq⟩ | ⟨-, -, heq⟩ := remove_cases g a
        · exact hremoved r (heq ▸ hr)
        · rw [heq] at hr
          obtain ⟨id, hid⟩ := SortedMap.mem_values_iff.mp hr
          rw [SortedMap.get?_put] at hid
          split at hid
          · exact Option.some.inj hid ▸ hc
          · exact hremoved r (SortedMap.mem_values_iff.mpr ⟨id, hid⟩)

/-- The first change of a transaction is all that its commit leaves. -/
theorem left_make (hadded : g.added = []) (hremoved : g.removed = .empty) (c : Change) :
    (c.make g).left schema x before = c.held schema x before := by
  have hnets : g.Nets schema [] x before before := nets_unchanged hadded hremoved
  cases c with
  | add r =>
    show (g.add r).left schema x before = _
    rw [left_add, hnets.left]
    rfl
  | remove r =>
    show (g.remove r).left schema x before = _
    obtain ⟨⟨b, hb, -⟩, -, -⟩ | ⟨-, hadded', hremoved'⟩ := remove_cases g r
    · simp [hadded] at hb
    · rw [left_of_not_added (by simp [hadded', hadded]), kept_put hremoved' (by simp [hremoved]), kept,
        hremoved]
      rfl

section

variable {settings : Settings} {s : Local} {changes : List Change}

/-- If all its changes can be written a transaction leaves their net effect. -/
theorem transact_ok (name : String) (features : Features) (hsound : s.memory.Sound)
    (hvalid : settings.validate = .ok ())
    (hwritable : ∀ c ∈ changes, ∃ es, entriesFor schema c.relation = .ok es) :
    ∃ m, (transact (Local.backend features) schema name settings changes).exec s =
        (.ok (), { s with memory := m }) ∧ m.Sound ∧
      ∀ c, m.holds c = if c.store = name then
          (changes.foldl Change.make (fresh s.memory name settings)).left schema c.target (s.memory.holds c)
        else s.memory.holds c := by
  have hfresh := live_fresh hsound name settings
  have hstart (c : LockedColumn) :
      ((s.memory.store name).2.beginTx .none).2.holds c = s.memory.holds c := by
    show (((s.memory.store name).2.contents c.store).row c.target.key).get? c.target.column = _
    rw [Memory.contents_store hsound]
    rfl
  obtain ⟨hadded, hremoved⟩ := of_foldl_make (g := fresh s.memory name settings)
    (P := fun r => ∃ es, entriesFor schema r = .ok es) (by simp [fresh])
    (by simp [fresh, SortedMap.mem_values_iff]) hwritable
  have hframe := foldl_make_eq changes (fresh s.memory name settings)
  unfold transact
  rw [Act.exec_bind_ok (start_ok features hvalid name s), Act.exec_of]
  generalize changes.foldl Change.make (fresh s.memory name settings) = g at hadded hremoved hframe ⊢
  obtain ⟨added, removed, modified, hframe⟩ := hframe
  have hname : g.storeName = name := congrArg GraphTx.storeName hframe
  have hlive : g.Live ((s.memory.store name).2.beginTx .none).2 := by
    rw [hframe]
    exact hfresh.of_eq rfl rfl rfl
  have hopen : g.openTx = .ok ⟨(s.memory.store name).2.begun + 1⟩ := by
    rw [hframe]
    rfl
  have hpatient : g.settings.retry.writeWaitMillis ≠ 0 := by
    rw [hframe]
    exact (Settings.patient_of_validate hvalid).2
  obtain ⟨batch, hbatch⟩ : ∃ batch, g.batch schema = .ok batch :=
    ⟨_, batch_eq_ok.mpr ⟨hremoved, hadded, rfl⟩⟩
  have hsound' := (Memory.writes_mutateMany hlive.sound batch).sound
  rw [commit_ok hlive.sound hopen (hlive.running _ (openTx_eq_ok.mp hopen)) hbatch fun _ => hpatient]
  refine ⟨_, rfl, ⟨hsound'.opened, hsound'.apart, hsound'.blank⟩, fun c => ?_⟩
  have hholds := holds_mutateMany hlive.sound hbatch c
  rw [hname, hstart] at hholds
  exact hholds

/-- Transactions of one change each leave what the changes leave one after another. -/
theorem transactEach_ok (name : String) (features : Features) (hsound : s.memory.Sound)
    (hvalid : settings.validate = .ok ())
    (hwritable : ∀ c ∈ changes, ∃ es, entriesFor schema c.relation = .ok es) :
    ∃ m, (transactEach (Local.backend features) schema name settings changes).exec s =
        (.ok (), { s with memory := m }) ∧
      ∀ c, m.holds c = if c.store = name then
          changes.foldl (Change.held schema c.target) (s.memory.holds c)
        else s.memory.holds c := by
  induction changes generalizing s with
  | nil => exact ⟨s.memory, rfl, fun c => (ite_self _).symm⟩
  | cons change changes ih =>
    obtain ⟨hc, hcs⟩ := List.forall_mem_cons.mp hwritable
    obtain ⟨m, hrun, hsound', hholds⟩ :=
      transact_ok name features hsound hvalid (List.forall_mem_singleton.mpr hc)
    obtain ⟨m', hrun', hholds'⟩ := ih (s := { s with memory := m }) hsound' hcs
    refine ⟨m', (Act.exec_bind_ok hrun _).trans hrun', fun c => ?_⟩
    rw [hholds', hholds]
    split
    · rw [List.foldl_cons, List.foldl_cons, List.foldl_nil, left_make rfl rfl]
    · rfl

/-- One transaction with many changes equals many transactions with one change.  Both run to the end, and
leave the same in every column of every store. -/
theorem holds_transact (name : String) (features : Features) (settings : Settings) {stored : List Relation}
    (hsound : s.memory.Sound) (hids : ∀ r ∈ stored, ∀ r' ∈ stored, r.id = r'.id → r = r')
    (hallowed : StepwiseAllowed schema stored changes)
    (hwritable : ∀ c ∈ changes, ∃ es, entriesFor schema c.relation = .ok es)
    (hheld : ∀ r, .add r ∈ changes → ∀ x ∈ r.columns schema, (s.memory.holds ⟨name, x⟩).isSome →
      ∃ a ∈ stored, x ∈ a.columns schema) :
    let together := (transact (Local.backend features) schema name settings changes).exec s
    let apart := (transactEach (Local.backend features) schema name settings changes).exec s
    (settings.validate = .ok () → together.1 = .ok () ∧ apart.1 = .ok ()) ∧
      ∀ c, together.2.memory.holds c = apart.2.memory.holds c := by
  intro together apart
  cases hvalid : settings.validate with
  | error f =>
    have hrefused (cs : List Change) :
        (transact (Local.backend features) schema name settings cs).exec s = (.error f, s) :=
      Act.exec_bind_error (start_error hvalid name s) _
    have htogether : together.2 = s := congrArg Prod.snd (hrefused changes)
    have hapart : apart.2 = s := by
      cases changes with
      | nil => rfl
      | cons c cs => exact congrArg Prod.snd (Act.exec_bind_error (hrefused [c]) _)
    rw [htogether, hapart]
    exact ⟨fun h => (by cases h), fun _ => rfl⟩
  | ok _ =>
    obtain ⟨m, hrun, -, hholds⟩ := transact_ok name features hsound hvalid hwritable
    obtain ⟨m', hrun', hholds'⟩ := transactEach_ok name features hsound hvalid hwritable
    have htogether : together = (.ok (), { s with memory := m }) := hrun
    have hapart : apart = (.ok (), { s with memory := m' }) := hrun'
    rw [htogether, hapart]
    refine ⟨fun _ => ⟨rfl, rfl⟩, fun c => ?_⟩
    rw [hholds, hholds']
    split
    · rename_i hc
      have hnets : (fresh s.memory name settings).Nets schema stored c.target (s.memory.holds c)
          (s.memory.holds c) := nets_unchanged rfl rfl
      have hvisible : (fresh s.memory name settings).visible stored = stored := by
        simp [visible, fresh, isRemoved_of_empty]
      refine (hnets.foldl_make hids (by rwa [hvisible]) fun r hr hx hsome => ?_).left
      exact hheld r hr c.target hx (by rwa [← hc])
    · rfl

end

end GraphTx

/-! ## Owners that change -/

namespace Purchase

open GraphTx (Change transact transactEach)

def schema : Schema := Layout.Owned.schema

/-- Vertex 1 owns vertex 2. -/
def owning (id : RelationId) : Relation := Layout.Owned.owning id

/-- A column of that relation, in the row of the owner, which does not tell the id. -/
def column : LockTarget := ((owning ⟨7⟩).columns schema).head?.getD default

/-- One transaction makes all changes. -/
def together (s : Local) (changes : List Change) : Outcome Unit × Local :=
  (transact (Local.backend Memory.defaultFeatures) schema "edgestore" .steady changes).exec s

/-- Every change has a transaction of its own. -/
def apart (s : Local) (changes : List Change) : Outcome Unit × Local :=
  (transactEach (Local.backend Memory.defaultFeatures) schema "edgestore" .steady changes).exec s

/-- What the column holds after changes that are made together, and apart. -/
def held (s : Local) (changes : List Change) : Option Bytes × Option Bytes :=
  let found (s : Local) := s.memory.holds ⟨"edgestore", column⟩
  (found (together s changes).2, found (apart s changes).2)

/-- The store with some relations. -/
def stored (relations : List Relation) : Local := (together .new (relations.map .add)).2

/-- The store in which vertex 1 owns vertex 2. -/
def before : Local := stored [owning ⟨7⟩]

/-- The thing is sold and bought, and then the same again. -/
def changes : List Change :=
  [.remove (owning ⟨7⟩), .add (owning ⟨8⟩), .remove (owning ⟨8⟩), .add (owning ⟨9⟩)]

/-- A relation of no type. -/
def untyped : Relation := { owning ⟨8⟩ with typeId := ⟨9999⟩ }

/-- Vertex 1 owns vertex 3, under an id that is taken. -/
def twin : Relation := { owning ⟨7⟩ with inVertex := some ⟨3⟩ }

/-- The store in which something else stands in the column. -/
def littered : Local :=
  let entry : Entry := ⟨column.column, [0]⟩
  let rows := SortedMap.empty.put column.key (Mutation.add .empty entry)
  { Local.new with memory := Memory.new.mutateRows "edgestore" rows }

theorem writable : ∀ c ∈ .add (owning ⟨7⟩) :: changes, ∃ es, entriesFor schema c.relation = .ok es := by
  have hok : ∀ c ∈ .add (owning ⟨7⟩) :: changes, (entriesFor schema c.relation).toOption.isSome := by
    decide +kernel
  exact fun c hc => ⟨_, Outcome.eq_ok_getD (hok c hc) []⟩

theorem sound_before : before.memory.Sound := by
  have hfirst : ∀ c ∈ [Change.add (owning ⟨7⟩)], ∃ es, entriesFor schema c.relation = .ok es :=
    List.forall_mem_singleton.mpr (writable _ List.mem_cons_self)
  obtain ⟨m, hrun, hsound, -⟩ := GraphTx.transact_ok (s := .new) "edgestore" Memory.defaultFeatures
    Memory.sound_new Settings.validate_steady hfirst
  have hbefore : before = { Local.new with memory := m } := congrArg Prod.snd hrun
  rw [hbefore]
  exact hsound

end Purchase

/-- A column that is cleared and taken, and then again, holds the same after one transaction as after four. -/
theorem GraphTx.holds_transact_purchase :
    (Purchase.together Purchase.before Purchase.changes).1 = .ok () ∧
      (Purchase.apart Purchase.before Purchase.changes).1 = .ok () ∧
      (∀ c, (Purchase.together Purchase.before Purchase.changes).2.memory.holds c =
        (Purchase.apart Purchase.before Purchase.changes).2.memory.holds c) ∧
      Purchase.held Purchase.before Purchase.changes =
        (some (Purchase.owning ⟨9⟩).storedBytes, some (Purchase.owning ⟨9⟩).storedBytes) := by
  have hids : ∀ r ∈ [Purchase.owning ⟨7⟩], ∀ r' ∈ [Purchase.owning ⟨7⟩], r.id = r'.id → r = r' := by
    intro r hr r' hr' _
    rw [List.mem_singleton.mp hr, List.mem_singleton.mp hr']
  have hallowed : GraphTx.StepwiseAllowed Purchase.schema [Purchase.owning ⟨7⟩] Purchase.changes := by
    decide +kernel
  have hheld : ∀ c ∈ Purchase.changes, ∀ x ∈ c.relation.columns Purchase.schema,
      (Purchase.before.memory.holds ⟨"edgestore", x⟩).isSome →
        ∃ a ∈ [Purchase.owning ⟨7⟩], x ∈ a.columns Purchase.schema := by
    decide +kernel
  obtain ⟨hok, hsame⟩ := GraphTx.holds_transact "edgestore" Memory.defaultFeatures .steady
    Purchase.sound_before hids hallowed (fun c hc => Purchase.writable c (List.mem_cons_of_mem _ hc))
    fun r hr => hheld (.add r) hr
  obtain ⟨htogether, hapart⟩ := hok Settings.validate_steady
  refine ⟨htogether, hapart, fun c => ?_, by decide +kernel⟩
  unfold Purchase.together Purchase.apart
  exact hsame c

/-- One transaction is not the same as several where a relation cannot be written, where something else stands
in a column that is taken and given up, and where two stored relations have one id: the one transaction
writes nothing, leaves what stands there, and forgets one of the two removals. -/
theorem transact_differs :
    GraphTx.StepwiseAllowed Purchase.schema [] [.add (Purchase.owning ⟨7⟩), .add Purchase.untyped] ∧
      Purchase.held .new [.add (Purchase.owning ⟨7⟩), .add Purchase.untyped] =
        (none, some (Purchase.owning ⟨7⟩).storedBytes) ∧
      GraphTx.StepwiseAllowed Purchase.schema []
        [.add (Purchase.owning ⟨7⟩), .remove (Purchase.owning ⟨7⟩)] ∧
      Purchase.held Purchase.littered [.add (Purchase.owning ⟨7⟩), .remove (Purchase.owning ⟨7⟩)] =
        (some [0], none) ∧
      GraphTx.StepwiseAllowed Purchase.schema [Purchase.owning ⟨7⟩, Purchase.twin]
        [.remove (Purchase.owning ⟨7⟩), .remove Purchase.twin] ∧
      Purchase.held (Purchase.stored [Purchase.owning ⟨7⟩, Purchase.twin])
          [.remove (Purchase.owning ⟨7⟩), .remove Purchase.twin] =
        (some (Purchase.owning ⟨7⟩).storedBytes, none) := by
  decide +kernel

end RowGraph
