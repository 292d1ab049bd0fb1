import RowGraph.Proofs.JointEffects
import RowGraph.Proofs.LockOwners
import RowGraph.Storage.Local

/-!
# The calls of one joint transaction

What each call of a joint transaction over memory does, given as the outcome and the state after it: a
failed check leaves everything as it is, the first mutation finds every locked column holding what it is
expected to, and ending a transaction releases nothing but its own locks.
-/

namespace RowGraph

/-- What the checking layer over memory, with lockers in the same process, is set up with. -/
structure LocalSetup where
  features : Features
  lease : Nanos
  settings : Settings

/-- The checking layer over memory. -/
def LocalSetup.checking (w : LocalSetup) : Checking Local StoreHandle TxHandle String where
  inner := Local.backend w.features
  locks := Local.locks w.lease
  suffix := w.settings.locks.suffix
  readBudget := .ofMillis w.settings.retry.readWaitMillis
  policy := .ofSettings w.settings.retry

namespace Checking

variable {w : LocalSetup} {j : Joint StoreHandle TxHandle String} {b b' : Local}

theorem quiet_checkLocks (j : Joint StoreHandle TxHandle String) :
    (w.checking.checkLocks j).Quiet :=
  Act.quiet_forM (fun _ => (Act.quiet_asks _).bind fun _ _ => rfl) _

/-- What the row of a key holds in a column, read in a store. -/
def seen (b : Local) (store : StoreHandle) (target : LockTarget) : Option Bytes :=
  ((b.memory.table store.number).row target.key).get? target.column

theorem checkValue_exec (j : Joint StoreHandle TxHandle String) (c : LockedColumn)
    (e : Option Bytes) (b : Local) :
    (∃ f, (w.checking.checkValue j c e).exec b = (.error f, b)) ∨
      (w.checking.checkValue j c e).exec b = (.ok (), b) ∧
        ∃ store locker, j.stores.get? c.store = some (store, locker) ∧ seen b store c.target = e := by
  unfold checkValue
  cases hs : j.stores.get? c.store with
  | none => exact .inl ⟨_, rfl⟩
  | some opened =>
    obtain ⟨store, locker⟩ := opened
    dsimp only
    have hread : (w.checking.inner.read store c.target.key
        (columnSlice c.target.column) j.consistent).exec b =
        (.ok ((b.memory.table store.number).read c.target.key (columnSlice c.target.column)), b) := rfl
    rw [Act.exec_bind_ok (Act.exec_asks ..)]
    by_cases hb : (w.checking.reading c.store (w.checking.draw b) : Operation Local).budget = 0
    · left
      exact ⟨_, Act.exec_bind_error (Operation.run_without_budget hb _ b) _⟩
    · rw [Act.exec_bind_ok (Operation.run_ok hb hread)]
      unfold Table.read
      rw [Row.find_columnSlice]
      by_cases he : seen b store c.target = e
      · right
        refine ⟨?_, store, locker, rfl, he⟩
        unfold seen at he
        rw [if_neg (not_not.mpr he), Act.exec_pure]
      · left
        refine ⟨mismatch c, ?_⟩
        unfold seen at he
        rw [if_pos he, Act.exec_throw]

theorem quiet_checkValue (j : Joint StoreHandle TxHandle String) (c : LockedColumn) (e : Option Bytes) :
    (w.checking.checkValue j c e).Quiet := by
  intro b
  obtain ⟨f, h⟩ | ⟨h, -⟩ := checkValue_exec j c e b
  · rw [h]
  · rw [h]

theorem quiet_checkValues (j : Joint StoreHandle TxHandle String) :
    (w.checking.checkValues j).Quiet := by
  have hquiet (x : LockedColumn × Option Bytes) :
      (w.checking.checkValue j x.1 x.2).Quiet := quiet_checkValue j x.1 x.2
  exact Act.quiet_forM hquiet _

/-- Every locked column holds what the transaction expects. -/
def Verified (j : Joint StoreHandle TxHandle String) (b : Local) : Prop :=
  ∀ c e, j.expected.get? c = some e →
    ∃ store locker, j.stores.get? c.store = some (store, locker) ∧ seen b store c.target = e

theorem verified_of_checkValues {u : Unit}
    (h : (w.checking.checkValues j).exec b = (.ok u, b')) : Verified j b := by
  intro c e he
  have hquiet (x : LockedColumn × Option Bytes) :
      (w.checking.checkValue j x.1 x.2).Quiet := quiet_checkValue j x.1 x.2
  have hc := Act.Quiet.forM_ok hquiet h (c, e) (SortedMap.mem_toList_iff.mpr he)
  obtain ⟨f, hf⟩ | ⟨-, hseen⟩ := checkValue_exec j c e b
  · rw [hf] at hc
    cases hc
  · exact hseen

/-! ## Mutating -/

/-- Preparing fails and changes nothing, or the transaction is active and, the first time, everything
it expects has been seen. -/
theorem prepare_exec (j : Joint StoreHandle TxHandle String) (b : Local) :
    (∃ f, w.checking.prepare.exec (j, b) = (.error f, (j, b))) ∨
      w.checking.prepare.exec (j, b) =
          (.ok j.hasAnyLocks, ({ j with mutationsStarted := true }, b)) ∧
        j.state = .active ∧ (j.mutationsStarted = false → Verified j b) := by
  obtain ⟨f, he, -⟩ | ⟨he, hactive⟩ := ensureActive_cases j
  · exact .inl ⟨f, prepare_ended he⟩
  cases hstarted : j.mutationsStarted with
  | true =>
    refine .inr ⟨?_, hactive, by simp⟩
    rw [prepare_started he hstarted]
    cases j
    dsimp only at hstarted
    rw [hstarted]
  | false =>
    have hexec := prepare_first (c := w.checking) (s := b) he hstarted
    have hquiet : (w.checking.verify j).Quiet := (quiet_checkLocks j).bind fun _ => quiet_checkValues j
    obtain ⟨f, hv⟩ | ⟨u, hv⟩ := hquiet.exec b
    · rw [hv] at hexec
      exact .inl ⟨f, hexec⟩
    · rw [hv] at hexec
      obtain ⟨_, -, hvalues⟩ := (quiet_checkLocks (w := w) j).bind_ok hv
      exact .inr ⟨hexec, hactive, fun _ => verified_of_checkValues hvalues⟩

/-- A mutation fails and changes nothing, or everything was prepared and the memory is mutated. -/
theorem mutate_exec (store : CheckedStore StoreHandle String) (key : Bytes) (m : Mutation)
    (j : Joint StoreHandle TxHandle String) (b : Local) :
    (∃ f, (w.checking.mutate store key m).exec (j, b) = (.error f, (j, b))) ∨
      (w.checking.mutate store key m).exec (j, b) =
          (.ok (), ({ j with mutationsStarted := true },
            { b with memory := b.memory.mutate store.store.number key m })) ∧
        j.state = .active ∧ (j.mutationsStarted = false → Verified j b) := by
  unfold mutate
  obtain ⟨f, h⟩ | ⟨h, hactive, hseen⟩ := prepare_exec (w := w) j b
  · exact .inl ⟨f, Act.exec_bind_error h _⟩
  · rw [Act.exec_bind_ok h, Act.exec_bind_ok (exec_joint _)]
    exact .inr ⟨rfl, hactive, hseen⟩

theorem mutateMany_exec (batch : Batch) (j : Joint StoreHandle TxHandle String) (b : Local) :
    (∃ f, (w.checking.mutateMany batch).exec (j, b) = (.error f, (j, b))) ∨
      (∃ metrics, (w.checking.mutateMany batch).exec (j, b) =
          (.ok (), ({ j with mutationsStarted := true },
            { b with memory := b.memory.mutateMany batch, metrics := metrics }))) ∧
        j.state = .active ∧ (j.mutationsStarted = false → Verified j b) := by
  unfold mutateMany
  obtain ⟨f, h⟩ | ⟨h, hactive, hseen⟩ := prepare_exec (w := w) j b
  · exact .inl ⟨f, Act.exec_bind_error h _⟩
  · rw [Act.exec_bind_ok h, Act.exec_bind_ok (exec_below (Act.exec_update ..) _),
      Act.exec_bind_ok (exec_joint _)]
    exact .inr ⟨⟨_, rfl⟩, hactive, hseen⟩

/-! ## Locking -/

theorem locks_write_ok {lease : Nanos} {name : String} {owner : Nat} {target : LockTarget} {b : Local}
    {lockers : Lockers} (h : b.lockers.write (now b) lease name owner target = .ok lockers) :
    ((Local.locks lease).write name target owner).exec b = (.ok (), { b with lockers := lockers }) := by
  simp only [Local.locks, Act.exec_of, h]

theorem locks_write_error {lease : Nanos} {name : String} {owner : Nat} {target : LockTarget} {b : Local}
    {f : Failure} (h : b.lockers.write (now b) lease name owner target = .error f) :
    ((Local.locks lease).write name target owner).exec b = (.error f, b) := by
  simp only [Local.locks, Act.exec_of, h]

/-- A lock is not taken and at most the attempt is noted, or the transaction is active and has not
begun to mutate, and what it expects is noted with the lock. -/
theorem lock_exec (store : CheckedStore StoreHandle String) (key column : Bytes) (e : Option Bytes)
    (j : Joint StoreHandle TxHandle String) (b : Local) :
    (∃ f attempted, (w.checking.lock store key column e).exec (j, b) =
        (.error f, ({ j with lockAttempted := attempted }, b))) ∨
      ∃ lockers, (w.checking.lock store key column e).exec (j, b) =
          (.ok (), (({ j with lockAttempted := true } : Joint StoreHandle TxHandle String).expect
            store.name (store.store, store.locker) ⟨key, column⟩ e, { b with lockers := lockers })) ∧
        j.state = .active ∧ j.mutationsStarted = false ∧
        b.lockers.write (now b) w.lease store.locker j.consistent.number ⟨key, column⟩ = .ok lockers := by
  obtain ⟨f, he, -⟩ | ⟨⟨he, hstarted⟩, hexec⟩ := lock_cases w.checking j b store key column e
  · exact .inl ⟨f, j.lockAttempted, he⟩
  · have hactive : j.state = .active := by
      obtain ⟨f, hf, -⟩ | ⟨-, hactive⟩ := ensureActive_cases j
      · rw [hf] at he
        cases he
      · exact hactive
    -- The locker writes the lock under the number of the consistent part, or refuses it.
    cases hl : b.lockers.write (now b) w.lease store.locker j.consistent.number ⟨key, column⟩ with
    | error f =>
      have hwrite : (w.checking.locks.write store.locker ⟨key, column⟩
          (w.checking.inner.txId j.consistent b)).exec b = (.error f, b) := locks_write_error hl
      rw [hwrite] at hexec
      exact .inl ⟨f, true, hexec⟩
    | ok lockers =>
      have hwrite : (w.checking.locks.write store.locker ⟨key, column⟩
          (w.checking.inner.txId j.consistent b)).exec b = (.ok (), { b with lockers := lockers }) :=
        locks_write_ok hl
      rw [hwrite] at hexec
      exact .inr ⟨lockers, hexec, hactive, hstarted, rfl⟩

/-! ## Ending -/

/-- The lockers after an owner's locks are released in some of them. -/
def released (owner : Nat) (names : List String) (l : Lockers) : Lockers :=
  names.foldl (fun l name => l.release name owner) l

theorem owner?_released {l : Lockers} {name : String} {x : LockTarget} {n owner : Nat}
    (hn : l.owner? name x = some n) (hne : n ≠ owner) (names : List String) :
    (released owner names l).owner? name x = some n := by
  induction names generalizing l with
  | nil => exact hn
  | cons other names ih => exact ih (Lockers.owner?_release hn hne other)

theorem firstFailure_eq_ok {α : Type} (xs : List α) : firstFailure (xs.map fun _ => .ok ()) = .ok () := by
  induction xs with
  | nil => rfl
  | cons x xs ih => exact ih

theorem releaseLocks_exec (j : Joint StoreHandle TxHandle String) (b : Local) :
    (w.checking.releaseLocks j).exec b =
      (.ok (), { b with
        lockers := released j.consistent.number (j.stores.values.map (·.2)) b.lockers }) := by
  have hfold (xs : List (StoreHandle × String)) (b : Local) :
      xs.foldl (fun b x => { b with lockers := b.lockers.release x.2 j.consistent.number }) b =
        { b with lockers := released j.consistent.number (xs.map (·.2)) b.lockers } := by
    induction xs generalizing b with
    | nil => rfl
    | cons x xs ih => exact ih _
  have hone (x : StoreHandle × String) (b : Local) :
      (Act.asks (w.checking.inner.txId j.consistent) >>= fun owner =>
        (w.checking.locks.release x.2 owner).attempt).exec b =
          (.ok (.ok ()), { b with lockers := b.lockers.release x.2 j.consistent.number }) := rfl
  unfold releaseLocks
  rw [Act.exec_bind_ok (Act.exec_mapM hone ..), firstFailure_eq_ok, Act.exec_ofOutcome, hfold]

/-- The state of the layers after a transaction has ended. -/
def ended (j : Joint StoreHandle TxHandle String) (b : Local) : Local :=
  { b with
    memory := (b.memory.closed j.inconsistent).closed j.consistent
    lockers := released j.consistent.number (j.stores.values.map (·.2)) b.lockers }

/-- The two parts of a transaction are open and not the same. -/
structure PartsOpen (j : Joint StoreHandle TxHandle String) (m : Memory) : Prop where
  inconsistent : (m.record j.inconsistent).ended = false
  consistent : (m.record j.consistent).ended = false
  apart : j.consistent.number ≠ j.inconsistent.number

theorem endTx_exec {t : TxHandle} (h : (b.memory.record t).ended = false) :
    (w.checking.inner.commit t).exec b =
        (.ok (), { b with memory := b.memory.closed t }) ∧
      (w.checking.inner.rollback t).exec b =
        (.ok (), { b with memory := b.memory.closed t }) := by
  have hend : ((b.memory.endTx t).1, { b with memory := (b.memory.endTx t).2 }) =
      ((.ok (), { b with memory := b.memory.closed t }) : Outcome Unit × Local) := by
    rw [Memory.endTx_eq h]
  exact ⟨hend, hend⟩

theorem PartsOpen.record_consistent (h : PartsOpen j b.memory) :
    ((b.memory.closed j.inconsistent).record j.consistent).ended = false := by
  rw [Memory.record_closed h.apart, h.consistent]

theorem attempt_ok {σ : Type} {act : Act σ Unit} {s s' : σ} (h : act.exec s = (.ok (), s')) :
    act.attempt.exec s = (.ok (.ok ()), s') := by
  rw [Act.exec_attempt, h]

/-- An active transaction whose parts are open can be committed, and no other. -/
theorem commit_exec (hopen : j.state = .active → PartsOpen j b.memory) :
    (∃ f, w.checking.commit.exec (j, b) = (.error f, (j, b)) ∧
        j.state ≠ .active) ∨
      w.checking.commit.exec (j, b) =
          (.ok (), ({ j with state := .committed }, ended j b)) ∧ j.state = .active := by
  unfold commit
  rw [Act.exec_bind_ok (exec_joint (j, b))]
  dsimp only
  obtain ⟨f, he, hended⟩ | ⟨he, hactive⟩ := ensureActive_cases j
  · exact .inl ⟨f, Act.exec_bind_error (by rw [Act.exec_ofOutcome, he]) _, hended⟩
  · have hparts := hopen hactive
    refine .inr ⟨?_, hactive⟩
    refine (Act.exec_bind_ok (by rw [Act.exec_ofOutcome, he]) _).trans ?_
    refine (Act.exec_bind_ok (exec_below (endTx_exec hparts.inconsistent).1 j) _).trans ?_
    refine (Act.exec_bind_ok (exec_below (releaseLocks_exec ..) j) _).trans ?_
    exact Act.exec_bind_ok (exec_below (endTx_exec hparts.record_consistent).1 j) _

/-- An active transaction whose parts are open can be rolled back, and no other. -/
theorem rollback_exec (hopen : j.state = .active → PartsOpen j b.memory) :
    (∃ f, w.checking.rollback.exec (j, b) = (.error f, (j, b)) ∧
        j.state ≠ .active) ∨
      w.checking.rollback.exec (j, b) =
          (.ok (), ({ j with state := .rolledBack }, ended j b)) ∧ j.state = .active := by
  unfold rollback
  rw [Act.exec_bind_ok (exec_joint (j, b))]
  dsimp only
  obtain ⟨f, he, hended⟩ | ⟨he, hactive⟩ := ensureActive_cases j
  · exact .inl ⟨f, Act.exec_bind_error (by rw [Act.exec_ofOutcome, he]) _, hended⟩
  · have hparts := hopen hactive
    refine .inr ⟨?_, hactive⟩
    refine (Act.exec_bind_ok (by rw [Act.exec_ofOutcome, he]) _).trans ?_
    refine (Act.exec_bind_ok (exec_change ..) _).trans ?_
    refine (Act.exec_bind_ok (attempt_ok (exec_below (releaseLocks_exec ..) _)) _).trans ?_
    have hfirst := (endTx_exec (w := w)
      (b := { b with lockers := (ended j b).lockers }) hparts.inconsistent).2
    have hsecond := (endTx_exec (w := w)
      (b := { ended j b with memory := b.memory.closed j.inconsistent }) hparts.record_consistent).2
    refine (Act.exec_bind_ok (attempt_ok (exec_below hfirst _)) _).trans ?_
    exact Act.exec_bind_ok (attempt_ok (exec_below hsecond _)) _

end Checking

end RowGraph
