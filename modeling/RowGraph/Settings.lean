import RowGraph.Failure
import RowGraph.Decimal.Notation

/-!
# Settings

The tunables of queries, locks and retries, their defaults, and what `Settings.validate` refuses.
-/

namespace RowGraph

/-- A span of time in nanoseconds. -/
abbrev Nanos := Nat

namespace Nanos

/-- Microseconds. -/
def ofMicros (n : Nat) : Nanos := n * 1000

/-- Milliseconds. -/
def ofMillis (n : Nat) : Nanos := n * 1000000

/-- The whole microseconds of a span. -/
def toMicros (d : Nanos) : Nat := d / 1000

/-- The whole milliseconds of a span. -/
def toMillis (d : Nanos) : Nat := d / 1000000

end Nanos

/-- How queries are compiled and run. -/
structure QuerySettings where
  /-- The greatest limit of a read that makes up for filtering. -/
  hardMaxLimit : Nat
  /-- Are results that several representatives return dropped but for the first? -/
  partitionDedup : Bool
  /-- Are only the representatives in local partitions read? -/
  restrictToPartitions : Bool
  deriving DecidableEq, Repr, Inhabited

/-- How locks are named and how long they last. -/
structure LockSettings where
  /-- What follows the name of a store in the name of its locker. -/
  suffix : String
  expiryMillis : Nat
  deriving DecidableEq, Repr, Inhabited

/-- How failed calls are repeated. -/
structure RetrySettings where
  baseWaitMillis : Nat
  /-- The share of a wait by which it may be shorter or longer. -/
  jitter : Binary64
  readWaitMillis : Nat
  writeWaitMillis : Nat
  deriving DecidableEq, Repr, Inhabited

/-- All tunables. -/
structure Settings where
  query : QuerySettings
  locks : LockSettings
  retry : RetrySettings
  deriving DecidableEq, Repr, Inhabited

namespace Settings

/-- The settings of queries unless given otherwise. -/
def queryDefaults : QuerySettings := ⟨300000, false, true⟩

/-- The settings of locks unless given otherwise. -/
def lockDefaults : LockSettings := ⟨"_lock_", 300000⟩

/-- The settings of retries unless given otherwise; the jitter is a fifth. -/
def retryDefaults : RetrySettings := ⟨50, .nearest false 1 5, 10000, 100000⟩

/-- The settings unless given otherwise. -/
def defaults : Settings := ⟨queryDefaults, lockDefaults, retryDefaults⟩

/-- Is a jitter at least zero and less than one? -/
def jitterInRange (x : Binary64) : Bool :=
  match Binary64.compareValues? (.ofNat 0) x, Binary64.compareValues? x (.ofNat 1) with
  | some a, some b => a.isLE && b == .lt
  | _, _ => false

/-- The first reason to refuse settings. -/
def problem? (s : Settings) : Option String :=
  if s.query.hardMaxLimit = 0 then some "query.hard_max_limit must be positive"
  else if s.retry.baseWaitMillis = 0 then some "retry.base_wait_ms must be positive"
  else if !jitterInRange s.retry.jitter then
    some ("retry.jitter must be in [0, 1), got " ++ NumberStyle.display.text s.retry.jitter)
  else if s.retry.readWaitMillis = 0 ∨ s.retry.writeWaitMillis = 0 then
    some "retry wait times must be positive"
  else if s.locks.suffix.isEmpty then some "locking.lock_store_suffix must not be empty"
  else if s.locks.expiryMillis = 0 then some "locking.lock_expiry_ms must be positive"
  else none

/-- Settings given in place of others. -/
structure Change where
  hardMaxLimit : Option Nat
  partitionDedup : Option Bool
  restrictToPartitions : Option Bool
  lockSuffix : Option String
  lockExpiryMillis : Option Nat
  baseWaitMillis : Option Nat
  jitter : Option Binary64
  readWaitMillis : Option Nat
  writeWaitMillis : Option Nat
  deriving DecidableEq, Repr, Inhabited

/-- The settings with a change. -/
def changed (s : Settings) (c : Change) : Settings where
  query := {
    hardMaxLimit := c.hardMaxLimit.getD s.query.hardMaxLimit
    partitionDedup := c.partitionDedup.getD s.query.partitionDedup
    restrictToPartitions := c.restrictToPartitions.getD s.query.restrictToPartitions }
  locks := {
    suffix := c.lockSuffix.getD s.locks.suffix
    expiryMillis := c.lockExpiryMillis.getD s.locks.expiryMillis }
  retry := {
    baseWaitMillis := c.baseWaitMillis.getD s.retry.baseWaitMillis
    jitter := c.jitter.getD s.retry.jitter
    readWaitMillis := c.readWaitMillis.getD s.retry.readWaitMillis
    writeWaitMillis := c.writeWaitMillis.getD s.retry.writeWaitMillis }

/-- The default settings without jitter, so that every wait is known beforehand. -/
def steady : Settings := { defaults with retry.jitter := .ofNat 0 }

/-- Refuses settings that nothing can work with. -/
def validate (s : Settings) : Outcome Unit :=
  match s.problem? with
  | some reason => .error (.settings reason)
  | none => .ok ()

end Settings

end RowGraph
