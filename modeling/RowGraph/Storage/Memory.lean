import RowGraph.Storage.Backend

/-!
# The backend in memory

Mutations take effect at once; a transaction is only a number with its options, which can be ended
once. Closing the backend forgets the stores, but whoever has opened one keeps it. There are no
locks.
-/

namespace RowGraph

/-- An opened store. -/
structure StoreHandle where
  number : Nat
  name : String
  deriving DecidableEq, Repr, Inhabited

/-- A transaction, counted from one. -/
structure TxHandle where
  number : Nat
  deriving DecidableEq, Repr, Inhabited

/-- What is known of a transaction. -/
structure TxRecord where
  options : TxOptions
  ended : Bool
  deriving DecidableEq, Repr, Inhabited

/-- Stores and transactions in memory. -/
structure Memory where
  /-- The stores that are open by name. -/
  stores : SortedMap String Nat
  /-- The rows of every store that was ever opened. -/
  tables : SortedMap Nat Table
  /-- How many stores were ever opened. -/
  opened : Nat
  transactions : SortedMap Nat TxRecord
  /-- How many transactions were ever begun. -/
  begun : Nat
  deriving Inhabited

namespace Memory

/-- No store and no transaction. -/
def new : Memory := ⟨.empty, .empty, 0, .empty, 0⟩

/-- What the backend in memory can do unless said otherwise. -/
def defaultFeatures : Features := ⟨true, false, true, false, true, .empty⟩

/-- The rows of a store. -/
def table (m : Memory) (number : Nat) : Table := (m.tables.get? number).getD .empty

/-- The rows of the open store with a name. -/
def contents (m : Memory) (name : String) : Table :=
  match m.stores.get? name with
  | some number => m.table number
  | none => .empty

/-- Opens a store, or finds it open. -/
def store (m : Memory) (name : String) : StoreHandle × Memory :=
  match m.stores.get? name with
  | some number => (⟨number, name⟩, m)
  | none =>
    (⟨m.opened, name⟩, { m with stores := m.stores.put name m.opened, opened := m.opened + 1 })

/-- Mutates a row of a store. -/
def mutate (m : Memory) (number : Nat) (key : Bytes) (mutation : Mutation) : Memory :=
  { m with tables := m.tables.put number ((m.table number).mutate key mutation) }

/-- Mutates rows of the store with a name. -/
def mutateRows (m : Memory) (name : String) (rows : SortedMap Bytes Mutation) : Memory :=
  let (handle, m) := m.store name
  rows.toList.foldl (fun m r => m.mutate handle.number r.1 r.2) m

/-- Mutates rows of several stores. -/
def mutateMany (m : Memory) (batch : Batch) : Memory :=
  batch.toList.foldl (fun m b => m.mutateRows b.1 b.2) m

/-- Begins a transaction. -/
def beginTx (m : Memory) (o : TxOptions) : TxHandle × Memory :=
  let number := m.begun + 1
  (⟨number⟩, { m with transactions := m.transactions.put number ⟨o, false⟩, begun := number })

/-- What is known of a transaction. -/
def record (m : Memory) (t : TxHandle) : TxRecord :=
  (m.transactions.get? t.number).getD ⟨.none, true⟩

/-- Sets what is known of a transaction. -/
def setRecord (m : Memory) (t : TxHandle) (r : TxRecord) : Memory :=
  { m with transactions := m.transactions.put t.number r }

/-- Ends a transaction, which can be done once. -/
def endTx (m : Memory) (t : TxHandle) : Outcome Unit × Memory :=
  let r := m.record t
  if r.ended then (.error (.invalid "transaction already closed"), m)
  else (.ok (), m.setRecord t { r with ended := true })

/-- Forgets the open stores. -/
def close (m : Memory) : Memory := { m with stores := .empty }

/-- The refusal of locks. -/
def noLocks : Failure :=
  .backend (.permanent "in-memory store does not support native locking" none)

/-- The backend in memory. -/
def backend (features : Features) : Backend Memory StoreHandle TxHandle where
  name := "inmemory"
  features := features
  openStore := fun name => Act.of fun m =>
    let (handle, m) := m.store name
    (.ok handle, m)
  storeName := StoreHandle.name
  read := fun store key slice _ => Act.asks fun m => (m.table store.number).read key slice
  mutate := fun store key mutation _ => Act.update fun m => m.mutate store.number key mutation
  lock := fun _ _ _ _ _ => throw noLocks
  mutateMany := fun batch _ => Act.update fun m => m.mutateMany batch
  beginTx := fun o => Act.of fun m =>
    let (handle, m) := m.beginTx o
    (.ok handle, m)
  txId := fun t _ => t.number
  options := fun t m => (m.record t).options
  stamp := fun t micros m =>
    let r := m.record t
    m.setRecord t { r with options := r.options.stamped micros }
  commit := fun t => Act.of fun m => m.endTx t
  rollback := fun t => Act.of fun m => m.endTx t
  close := Act.update close

end Memory

end RowGraph
