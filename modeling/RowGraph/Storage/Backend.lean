import RowGraph.Decimal.Binary64
import RowGraph.Failure
import RowGraph.Row.Mutation
import RowGraph.Storage.Options

/-!
# Backends

What this library asks of a backend: named stores of rows, and transactions that every call is made
in. `S` refers to opened stores, `T` to transactions, `σ` is all that the calls may read and change.
Nothing is assumed about the calls; each may fail.
-/

namespace RowGraph

/-- A storage backend. -/
structure Backend (σ S T : Type) where
  name : String
  features : Features
  /-- Opens the store with a name. -/
  openStore : String → Act σ S
  storeName : S → String
  /-- Reads a slice of the row of a key. -/
  read : S → Bytes → Slice → T → Act σ (List Entry)
  /-- Mutates the row of a key. -/
  mutate : S → Bytes → Mutation → T → Act σ Unit
  /-- Locks a column of a key, which is expected to hold a value or nothing. -/
  lock : S → Bytes → Bytes → Option Bytes → T → Act σ Unit
  /-- Mutates rows of several stores. -/
  mutateMany : Batch → T → Act σ Unit
  beginTx : TxOptions → Act σ T
  txId : T → σ → Nat
  options : T → σ → TxOptions
  /-- Sets the commit time of a transaction. -/
  stamp : T → Nat → σ → σ
  commit : T → Act σ Unit
  rollback : T → Act σ Unit
  /-- Releases what the backend holds. -/
  close : Act σ Unit
  /-- The factors drawn for the waits when a call is made again. -/
  draw : σ → Nat → Binary64 := fun _ _ => .ofNat 1

namespace Backend

variable {σ τ S T : Type}

/-- The backend inside a larger state. -/
def within (b : Backend σ S T) (get : τ → σ) (set : τ → σ → τ) : Backend τ S T :=
  let act {α : Type} (a : Act σ α) : Act τ α := a.on get (fun s t => set t s)
  { name := b.name
    features := b.features
    openStore := fun name => act (b.openStore name)
    storeName := b.storeName
    read := fun store key slice tx => act (b.read store key slice tx)
    mutate := fun store key m tx => act (b.mutate store key m tx)
    lock := fun store key column expected tx => act (b.lock store key column expected tx)
    mutateMany := fun batch tx => act (b.mutateMany batch tx)
    beginTx := fun o => act (b.beginTx o)
    txId := fun tx t => b.txId tx (get t)
    options := fun tx t => b.options tx (get t)
    stamp := fun tx micros t => set t (b.stamp tx micros (get t))
    commit := fun tx => act (b.commit tx)
    rollback := fun tx => act (b.rollback tx)
    close := act b.close
    draw := fun t => b.draw (get t) }

end Backend

end RowGraph
