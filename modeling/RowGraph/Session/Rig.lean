import RowGraph.Storage.Checked
import RowGraph.Storage.Faults
import RowGraph.Storage.Local

/-!
# Rigs

The layers of storage put together: a backend and lockers in this process, their calls watched, and
above them the layer that checks expected values. A rig is used either through that layer or past
it; both have the same state.
-/

namespace RowGraph

/-- The state of all layers. -/
abbrev Layers := Checked (Watched Local) StoreHandle TxHandle String

/-- A transaction inside a joint one. -/
structure TxView where
  number : Nat
  options : TxOptions
  deriving DecidableEq, Repr

/-- What a joint transaction shows. -/
structure JointView where
  inconsistent : TxView
  consistent : TxView
  hasAnyLocks : Bool
  mutationsStarted : Bool
  /-- The text of the transaction for a log. -/
  debugText : String
  deriving DecidableEq, Repr

/-- A way to use the layers. -/
structure Rig (S T : Type) where
  backend : Backend Layers S T
  /-- Begins a transaction below the checking layer. -/
  foreign : TxOptions → Act Layers T
  /-- Are two opened stores one and the same? -/
  same : S → S → Bool
  /-- What a transaction shows if it is a joint one. -/
  joint? : T → Layers → Option JointView
  /-- Checks everything that a transaction expects. -/
  prepare : T → Act Layers Bool
  /-- Does the backend below the checking layer lock by itself? -/
  innerLocking : Bool

namespace Rig

/-- A truth value in a log. -/
def flagText (b : Bool) : String := if b then "true" else "false"

/-- A joint transaction in a log. -/
def jointText (inconsistent consistent : Nat) {S T L : Type} (j : Joint S T L) : String :=
  "ExpectedValueCheckingTransaction \x7b inconsistent: " ++ toString inconsistent ++
    ", consistent: " ++ toString consistent ++ ", expected: " ++ toString j.expected.size ++
    ", lock_attempted: " ++ flagText j.lockAttempted ++ ", mutations_started: " ++
    flagText j.mutationsStarted ++ ", state: " ++ j.state.name ++ " \x7d"

/-- The watched backend in memory. -/
def watched (features : Features) : Backend (Watched Local) StoreHandle TxHandle :=
  Watched.backend (Local.backend features)

/-- The watched backend without the checking layer. An opened store is never the same as another. -/
def unchecked (features : Features) : Rig StoreHandle TxHandle :=
  let backend := (watched features).within (τ := Layers) Checked.base
    fun s b => { s with base := b }
  { backend := backend
    foreign := backend.beginTx
    same := fun _ _ => false
    joint? := fun _ _ => none
    prepare := fun _ => throw Checked.notJoint
    innerLocking := features.locking }

/-- The checking layer over the watched backend and lockers. -/
def checking (features : Features) (settings : Settings) :
    Checking (Watched Local) StoreHandle TxHandle String where
  inner := watched features
  locks := Watched.locks (Local.locks (.ofMillis settings.locks.expiryMillis))
  suffix := settings.locks.suffix
  readBudget := .ofMillis settings.retry.readWaitMillis
  policy := .ofSettings settings.retry

/-- What a joint transaction shows. -/
def view (b : Backend (Watched Local) StoreHandle TxHandle)
    (j : Joint StoreHandle TxHandle String) (s : Watched Local) : JointView :=
  let part (tx : TxHandle) : TxView := ⟨b.txId tx s, b.options tx s⟩
  let inconsistent := part j.inconsistent
  let consistent := part j.consistent
  { inconsistent := inconsistent
    consistent := consistent
    hasAnyLocks := j.hasAnyLocks
    mutationsStarted := j.mutationsStarted
    debugText := jointText inconsistent.number consistent.number j }

/-- The checking layer. -/
def checked (features : Features) (settings : Settings) :
    Rig (CheckedStore StoreHandle String) (JointHandle TxHandle) :=
  let c := checking features settings
  { backend := Checked.backend c
    foreign := fun o => Checked.below do return .foreign (← c.inner.beginTx o)
    same := fun a b => a.serial == b.serial
    joint? := fun tx s => (Checked.joint? tx s).map fun j => view c.inner j s.base
    prepare := fun tx => Checked.inJoint c.prepare tx
    innerLocking := features.locking }

end Rig

end RowGraph
