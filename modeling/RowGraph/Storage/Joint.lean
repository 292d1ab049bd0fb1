import RowGraph.Storage.Locks
import RowGraph.Storage.Metrics
import RowGraph.Storage.Backend
import RowGraph.Storage.Retry

/-!
# Transactions that check expected values

A joint transaction pairs two transactions of an inner backend: an inconsistent one, which is cheap,
and a consistent one, in which reads see every write before them. Locks are taken for the consistent
one, each with the value that its column is expected to hold. Before the first mutation all locks
are checked and all columns read again. A transaction that ever tried to take a lock writes through
the consistent one from then on, any other through the inconsistent one.

Ending a joint transaction releases its locks; after that it accepts nothing but reads.
-/

namespace RowGraph

/-- A locked column of a key in a store. -/
structure LockedColumn where
  store : String
  target : LockTarget
  deriving DecidableEq, Repr, Inhabited

instance : Ord LockedColumn :=
  ⟨compareLex (compareOn LockedColumn.store) (compareOn LockedColumn.target)⟩

instance : Std.TransOrd LockedColumn :=
  inferInstanceAs (Std.TransCmp (compareLex (compareOn LockedColumn.store)
    (compareOn LockedColumn.target)))

/-- How far a joint transaction has come. -/
inductive JointState where
  | active
  | committed
  | rolledBack
  deriving DecidableEq, Repr, Inhabited

/-- The name of a state. -/
def JointState.name : JointState → String
  | .active => "Active"
  | .committed => "Committed"
  | .rolledBack => "RolledBack"

/-- A joint transaction. -/
structure Joint (S T L : Type) where
  options : TxOptions
  inconsistent : T
  consistent : T
  /-- What the locked columns are expected to hold. -/
  expected : SortedMap LockedColumn (Option Bytes)
  /-- The stores in which locks were taken, with their lockers. -/
  stores : SortedMap String (S × L)
  /-- Was a lock ever asked for? -/
  lockAttempted : Bool
  /-- Was everything checked and mutating begun? -/
  mutationsStarted : Bool
  state : JointState

namespace Joint

variable {S T L : Type}

/-- A new joint transaction. -/
def new (options : TxOptions) (inconsistent consistent : T) : Joint S T L where
  options := options
  inconsistent := inconsistent
  consistent := consistent
  expected := .empty
  stores := .empty
  lockAttempted := false
  mutationsStarted := false
  state := .active

/-- Are there locks, or was there an attempt to take one? -/
def hasAnyLocks (j : Joint S T L) : Bool := j.lockAttempted || !j.expected.isEmpty

/-- The inner transaction that mutations go through. -/
def writer (j : Joint S T L) : T := if j.hasAnyLocks then j.consistent else j.inconsistent

/-- Refuses a transaction that has ended. -/
def ensureActive (j : Joint S T L) : Outcome Unit :=
  match j.state with
  | .active => .ok ()
  | .committed => .error (.invalid "transaction already committed")
  | .rolledBack => .error (.invalid "transaction already rolled back")

/-- Takes note of a lock that was taken. A later expectation replaces an earlier one. -/
def expect (j : Joint S T L) (store : String) (opened : S × L) (target : LockTarget)
    (value : Option Bytes) : Joint S T L :=
  { j with
    stores := if j.stores.contains store then j.stores else j.stores.put store opened
    expected := j.expected.put ⟨store, target⟩ value }

end Joint

/-- A store of the checking layer: an inner store and its locker. -/
structure CheckedStore (S L : Type) where
  name : String
  store : S
  locker : L
  /-- Which of all stores ever opened it is. -/
  serial : Nat
  deriving Inhabited

/-- The checking layer over an inner backend. -/
structure Checking (σ S T L : Type) where
  inner : Backend σ S T
  locks : LockService σ L
  /-- What follows the name of a store in the name of its locker. -/
  suffix : String
  /-- The time for reading an expected value. -/
  readBudget : Nanos
  policy : RetryPolicy
  /-- The factors drawn for the waits when a value is read again. -/
  draw : σ → Nat → Binary64 := fun _ _ => .ofNat 1

namespace Checking

variable {σ S T L α : Type} [Timed σ]

/-- A lock is asked for too late. -/
def tooLate : Failure :=
  .backend (.permanent "attempted to obtain a lock after mutations had been persisted" none)

/-- A column does not hold what it is expected to. -/
def mismatch (c : LockedColumn) : Failure :=
  .backend (.permanent
    ("expected value mismatch in " ++ c.store ++ " for " ++ c.target.text) none)

/-- The slice that holds one column. -/
def columnSlice (column : Bytes) : Slice := ⟨column, column ++ [0], some 1⟩

/-- The operation that reads an expected value again, with the factors that it draws. -/
def reading (c : Checking σ S T L) (store : String) (draw : Nat → Binary64) : Operation σ where
  name := store ++ ".check_expected_value"
  budget := c.readBudget
  policy := c.policy
  draw := draw
  interrupted := fun _ => false
  note := id

/-- Makes sure that all locks of a transaction are still its own. -/
def checkLocks (c : Checking σ S T L) (j : Joint S T L) : Act σ Unit :=
  j.stores.values.forM fun opened => do
    c.locks.check opened.2 (← Act.asks (c.inner.txId j.consistent))

/-- Makes sure that a column holds what it is expected to. -/
def checkValue (c : Checking σ S T L) (j : Joint S T L) (column : LockedColumn)
    (expected : Option Bytes) : Act σ Unit := do
  let some (store, _) := j.stores.get? column.store | throw (.notFound "locked store")
  let target := column.target
  let draw ← Act.asks c.draw
  let entries ← (c.reading column.store draw).run
    (c.inner.read store target.key (columnSlice target.column) j.consistent)
  let actual := (entries.find? fun e => e.column == target.column).map Entry.value
  if actual ≠ expected then throw (mismatch column)

/-- Makes sure that every locked column holds what it is expected to. -/
def checkValues (c : Checking σ S T L) (j : Joint S T L) : Act σ Unit :=
  j.expected.toList.forM fun e => c.checkValue j e.1 e.2

/-- The first failure of several calls. -/
def firstFailure : List (Outcome Unit) → Outcome Unit
  | [] => .ok ()
  | .ok _ :: rest => firstFailure rest
  | .error f :: _ => .error f

/-- Releases the locks of a transaction in all stores and reports the first failure. -/
def releaseLocks (c : Checking σ S T L) (j : Joint S T L) : Act σ Unit := do
  let outcomes ← j.stores.values.mapM fun opened => do
    (c.locks.release opened.2 (← Act.asks (c.inner.txId j.consistent))).attempt
  Act.ofOutcome (firstFailure outcomes)

/-! ## The calls of one joint transaction -/

/-- A call of the layers below. -/
def below (act : Act σ α) : Act (Joint S T L × σ) α := act.on (·.2) fun s p => (p.1, s)

/-- The transaction as it is. -/
def joint : Act (Joint S T L × σ) (Joint S T L) := Act.asks (·.1)

/-- Changes the transaction. -/
def change (f : Joint S T L → Joint S T L) : Act (Joint S T L × σ) Unit :=
  Act.update fun p => (f p.1, p.2)

/-- Checks everything before the first mutation. Must mutations go through the consistent
transaction? -/
def prepare (c : Checking σ S T L) : Act (Joint S T L × σ) Bool := do
  let j ← joint
  Act.ofOutcome j.ensureActive
  if !j.mutationsStarted then
    below (c.checkLocks j)
    below (c.checkValues j)
    change fun j => { j with mutationsStarted := true }
  return j.hasAnyLocks

/-- Reads in the inconsistent transaction. -/
def read (c : Checking σ S T L) (store : CheckedStore S L) (key : Bytes) (slice : Slice) :
    Act (Joint S T L × σ) (List Entry) := do
  let j ← joint
  below (c.inner.read store.store key slice j.inconsistent)

/-- Mutates a row. -/
def mutate (c : Checking σ S T L) (store : CheckedStore S L) (key : Bytes) (m : Mutation) :
    Act (Joint S T L × σ) Unit := do
  let _ ← c.prepare
  let j ← joint
  below (c.inner.mutate store.store key m j.writer)

/-- Mutates rows of several stores. -/
def mutateMany [Metered σ] (c : Checking σ S T L) (batch : Batch) :
    Act (Joint S T L × σ) Unit := do
  let consistent ← c.prepare
  below (Act.update (count fun m => m.countBatch consistent))
  let j ← joint
  below (c.inner.mutateMany batch j.writer)

/-- Locks a column and notes what it is expected to hold. -/
def lock (c : Checking σ S T L) (store : CheckedStore S L) (key column : Bytes)
    (expected : Option Bytes) : Act (Joint S T L × σ) Unit := do
  let j ← joint
  Act.ofOutcome j.ensureActive
  if j.mutationsStarted then throw tooLate
  change fun j => { j with lockAttempted := true }
  let target : LockTarget := ⟨key, column⟩
  below do c.locks.write store.locker target (← Act.asks (c.inner.txId j.consistent))
  change fun j => j.expect store.name (store.store, store.locker) target expected

/-- Commits. -/
def commit (c : Checking σ S T L) : Act (Joint S T L × σ) Unit := do
  let j ← joint
  Act.ofOutcome j.ensureActive
  below (c.inner.commit j.inconsistent)
  below (c.releaseLocks j)
  below (c.inner.commit j.consistent)
  change fun j => { j with state := .committed }

/-- Rolls back, whatever fails on the way. -/
def rollback (c : Checking σ S T L) : Act (Joint S T L × σ) Unit := do
  let j ← joint
  Act.ofOutcome j.ensureActive
  change fun j => { j with state := .rolledBack }
  let released ← (below (c.releaseLocks j)).attempt
  let inconsistent ← (below (c.inner.rollback j.inconsistent)).attempt
  let consistent ← (below (c.inner.rollback j.consistent)).attempt
  Act.ofOutcome (firstFailure [released, inconsistent, consistent])

/-- Begins a joint transaction. If only the inconsistent one can be begun it is rolled back. -/
def begun (c : Checking σ S T L) (o : TxOptions) : Act σ (Joint S T L) := do
  let inconsistent ← c.inner.beginTx o
  match ← (c.inner.beginTx (o.mergedWith c.inner.features.required)).attempt with
  | .ok consistent => return .new o inconsistent consistent
  | .error f =>
    let _ ← (c.inner.rollback inconsistent).attempt
    throw f

/-- Opens a store and finds its locker. -/
def opened (c : Checking σ S T L) (name : String) (serial : Nat) : Act σ (CheckedStore S L) := do
  let store ← c.inner.openStore name
  let locker ← c.locks.locker (name ++ c.suffix)
  return ⟨name, store, locker, serial⟩

end Checking

end RowGraph
