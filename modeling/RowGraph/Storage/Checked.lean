import RowGraph.Storage.Joint

/-!
# The backend that checks expected values

Many joint transactions over one inner backend. A store is opened once and stays the same until the
backend is closed. Transactions of the inner backend itself are not accepted, but can be ended.
-/

namespace RowGraph

/-- A transaction given to the checking backend. -/
inductive JointHandle (T : Type) where
  /-- One of its own joint transactions, by number. -/
  | joint (number : Nat)
  /-- A transaction of the inner backend. -/
  | foreign (tx : T)
  deriving DecidableEq, Repr

/-- The state of the checking backend. -/
structure Checked (σ S T L : Type) where
  base : σ
  /-- The stores that are open. -/
  stores : SortedMap String (CheckedStore S L)
  /-- How many stores were ever opened. -/
  opened : Nat
  joints : SortedMap Nat (Joint S T L)
  /-- How many joint transactions were ever begun. -/
  begun : Nat

namespace Checked

variable {σ S T L α : Type}

/-- No store and no transaction. -/
def new (base : σ) : Checked σ S T L := ⟨base, .empty, 0, .empty, 0⟩

instance [Timed σ] : Timed (Checked σ S T L) :=
  ⟨fun s => Timed.clock s.base, fun s c => { s with base := Timed.setClock s.base c }⟩

instance [Metered σ] : Metered (Checked σ S T L) :=
  ⟨fun s => Metered.metrics s.base, fun s m => { s with base := Metered.setMetrics s.base m }⟩

/-- The transaction is none of the backend's own. -/
def notJoint : Failure :=
  .invalid "transaction was not opened by the expected-value-checking manager"

/-- A call of the layers below. -/
def below (act : Act σ α) : Act (Checked σ S T L) α :=
  act.on base fun b s => { s with base := b }

/-- A call of a joint transaction. -/
def inJoint (act : Act (Joint S T L × σ) α) : JointHandle T → Act (Checked σ S T L) α
  | .foreign _ => throw notJoint
  | .joint number => Act.of fun s =>
    match s.joints.get? number with
    | none => (.error notJoint, s)
    | some j =>
      let r := act.exec (j, s.base)
      (r.1, { s with base := r.2.2, joints := s.joints.put number r.2.1 })

/-- Opens a store, or finds it open. -/
def openStore [Timed σ] (c : Checking σ S T L) (name : String) :
    Act (Checked σ S T L) (CheckedStore S L) := do
  match ← Act.asks fun s => s.stores.get? name with
  | some store => return store
  | none =>
    let store ← below (c.opened name (← Act.asks opened))
    Act.update fun s => { s with stores := s.stores.put name store, opened := s.opened + 1 }
    return store

/-- Begins a joint transaction. -/
def beginTx [Timed σ] (c : Checking σ S T L) (o : TxOptions) :
    Act (Checked σ S T L) (JointHandle T) := do
  let j ← below (c.begun o)
  let number ← Act.asks begun
  Act.update fun s => { s with joints := s.joints.put number j, begun := number + 1 }
  return .joint number

/-- The joint transaction behind a handle. -/
def joint? (tx : JointHandle T) (s : Checked σ S T L) : Option (Joint S T L) :=
  match tx with
  | .joint number => s.joints.get? number
  | .foreign _ => none

/-- The number of a transaction: that of the inconsistent one. -/
def txId (b : Backend σ S T) (tx : JointHandle T) (s : Checked σ S T L) : Nat :=
  match tx, joint? tx s with
  | .foreign t, _ => b.txId t s.base
  | _, some j => b.txId j.inconsistent s.base
  | _, none => 0

/-- The options of a transaction. -/
def options (b : Backend σ S T) (tx : JointHandle T) (s : Checked σ S T L) : TxOptions :=
  match tx, joint? tx s with
  | .foreign t, _ => b.options t s.base
  | _, some j => j.options
  | _, none => .none

/-- Sets the commit time of a transaction, of a joint one without its parts. -/
def stamp (b : Backend σ S T) (tx : JointHandle T) (micros : Nat) (s : Checked σ S T L) :
    Checked σ S T L :=
  match tx with
  | .foreign t => { s with base := b.stamp t micros s.base }
  | .joint number => { s with
      joints := s.joints.alter number fun j? =>
        j?.map fun j => { j with options := j.options.stamped micros } }

/-- Ends a transaction. -/
def ended (act : Act (Joint S T L × σ) Unit) (foreign : T → Act σ Unit) :
    JointHandle T → Act (Checked σ S T L) Unit
  | .foreign t => below (foreign t)
  | tx => inJoint act tx

/-- Closes all stores and the inner backend. -/
def close (c : Checking σ S T L) : Act (Checked σ S T L) Unit := do
  Act.update fun s => { s with stores := .empty }
  below c.inner.close

/-- The checking layer as a backend. -/
def backend [Timed σ] [Metered σ] (c : Checking σ S T L) :
    Backend (Checked σ S T L) (CheckedStore S L) (JointHandle T) where
  name := c.inner.name
  features := { c.inner.features with locking := true }
  openStore := openStore c
  storeName := CheckedStore.name
  read := fun store key slice tx => inJoint (c.read store key slice) tx
  mutate := fun store key m tx => inJoint (c.mutate store key m) tx
  lock := fun store key column expected tx => inJoint (c.lock store key column expected) tx
  mutateMany := fun batch tx => inJoint (c.mutateMany batch) tx
  beginTx := beginTx c
  txId := txId c.inner
  options := options c.inner
  stamp := stamp c.inner
  commit := ended c.commit c.inner.commit
  rollback := ended c.rollback c.inner.rollback
  close := close c
  draw := fun s => c.draw s.base

end Checked

end RowGraph
