import RowGraph.Storage.Clock
import RowGraph.SortedMap
import RowGraph.Bytes

/-!
# Locks with leases

A locker keeps, for every locked column of a key, who owns the lock and when its lease ends. A lock
whose lease has ended may be taken over. Each owner's requests are remembered until it releases
them, so that it can ask whether all of its locks are still its own.
-/

namespace RowGraph

/-- What can be locked: a column of a key. -/
structure LockTarget where
  key : Bytes
  column : Bytes
  deriving DecidableEq, Repr, Inhabited

instance : Ord LockTarget :=
  ⟨compareLex (compareOn LockTarget.key) (compareOn LockTarget.column)⟩

instance : Std.TransOrd LockTarget :=
  inferInstanceAs (Std.TransCmp (compareLex (compareOn LockTarget.key)
    (compareOn LockTarget.column)))

/-- The key and the column in hexadecimal digits. -/
def LockTarget.text (t : LockTarget) : String := t.key.toHex ++ ":" ++ t.column.toHex

/-- A lock that is held. -/
structure LockRecord where
  /-- The transaction that took the lock. -/
  owner : Nat
  /-- The time at which the lease ends. -/
  expires : Nanos
  deriving DecidableEq, Repr, Inhabited

/-- The locks of one locker. -/
structure LockTable where
  held : SortedMap LockTarget LockRecord
  /-- The targets each owner has asked for, in order. -/
  requested : SortedMap Nat (List LockTarget)
  deriving DecidableEq, Inhabited

namespace LockTable

/-- No lock. -/
def empty : LockTable := ⟨.empty, .empty⟩

/-- Another transaction has the lock. -/
def contended (target : LockTarget) (holder : Nat) : Failure :=
  .backend (.temporary
    ("lock on " ++ target.text ++ " held by transaction " ++ toString holder) none)

/-- A lock is no longer its owner's. -/
def lost (target : LockTarget) : Failure :=
  .backend (.permanent ("lock on " ++ target.text ++ " expired or was lost") none)

/-- Who but `owner` has the lock on a target at a time? -/
def holder? (t : LockTable) (time : Nanos) (owner : Nat) (target : LockTarget) : Option Nat :=
  match t.held.get? target with
  | some r => if r.owner ≠ owner ∧ time < r.expires then some r.owner else none
  | none => none

/-- The targets that an owner has asked for. -/
def requests (t : LockTable) (owner : Nat) : List LockTarget := (t.requested.get? owner).getD []

/-- Takes or renews a lock for a lease. -/
def write (t : LockTable) (time lease : Nanos) (owner : Nat) (target : LockTarget) :
    Outcome LockTable :=
  match t.holder? time owner target with
  | some holder => .error (contended target holder)
  | none =>
    let asked := t.requests owner
    .ok {
      held := t.held.put target ⟨owner, time + lease⟩
      requested := t.requested.put owner
        (if asked.contains target then asked else asked ++ [target]) }

/-- Does an owner have the lock on a target at a time? -/
def owns (t : LockTable) (time : Nanos) (owner : Nat) (target : LockTarget) : Bool :=
  match t.held.get? target with
  | some r => r.owner == owner && decide (time < r.expires)
  | none => false

/-- Makes sure that an owner has all locks that it asked for. -/
def check (t : LockTable) (time : Nanos) (owner : Nat) : Outcome Unit :=
  match (t.requests owner).find? (fun target => !t.owns time owner target) with
  | some target => .error (lost target)
  | none => .ok ()

/-- Releases all locks that an owner asked for and still owns. -/
def release (t : LockTable) (owner : Nat) : LockTable :=
  let owned (target : LockTarget) : Bool :=
    match t.held.get? target with
    | some r => r.owner == owner
    | none => false
  { held := (t.requests owner).foldl
      (fun held target => if owned target then held.erase target else held) t.held
    requested := t.requested.erase owner }

end LockTable

/-- The lockers of a process by name. A locker that was never used is empty. -/
abbrev Lockers := SortedMap String LockTable

namespace Lockers

/-- The locks of a locker. -/
def table (l : Lockers) (name : String) : LockTable := (l.get? name).getD .empty

/-- The number of locks that a locker holds, whether their leases have ended or not. -/
def heldCount (l : Lockers) (name : String) : Nat := (l.table name).held.size

/-- Takes a lock. -/
def write (l : Lockers) (time lease : Nanos) (name : String) (owner : Nat) (target : LockTarget) :
    Outcome Lockers := do
  let table ← (l.table name).write time lease owner target
  return l.put name table

/-- Makes sure that an owner has all its locks. -/
def check (l : Lockers) (time : Nanos) (name : String) (owner : Nat) : Outcome Unit :=
  (l.table name).check time owner

/-- Releases the locks of an owner. -/
def release (l : Lockers) (name : String) (owner : Nat) : Lockers :=
  l.put name ((l.table name).release owner)

end Lockers

/-- What a locking layer asks of lockers. `L` refers to a locker. -/
structure LockService (σ L : Type) where
  /-- The locker with a name. -/
  locker : String → Act σ L
  /-- Takes or renews a lock for an owner. -/
  write : L → LockTarget → (owner : Nat) → Act σ Unit
  /-- Makes sure that an owner has all its locks. -/
  check : L → (owner : Nat) → Act σ Unit
  /-- Releases the locks of an owner. -/
  release : L → (owner : Nat) → Act σ Unit

end RowGraph
