import RowGraph.Storage.Backend
import RowGraph.Storage.Retry

/-!
# Work inside a transaction

`TxProvider.perform` opens a transaction, gives it a commit time unless it has one, and runs some
work in it: if the work succeeds the transaction is committed, otherwise it is rolled back and the
failure of the work is reported. The clock that commit times are taken from need not be the one that
an operation waits by.
-/

namespace RowGraph

/-- Something that opens transactions. -/
structure TxProvider (σ T : Type) where
  openTx : Act σ T
  options : T → σ → TxOptions
  stamp : T → Nat → σ → σ
  commit : T → Act σ Unit
  rollback : T → Act σ Unit

/-- The transactions of a backend, begun with the same options. -/
def Backend.provider {σ S T : Type} (b : Backend σ S T) (o : TxOptions) : TxProvider σ T where
  openTx := b.beginTx o
  options := b.options
  stamp := b.stamp
  commit := b.commit
  rollback := b.rollback

namespace TxProvider

variable {σ T α : Type}

/-- Gives a transaction a commit time unless it has one. -/
def stampNow (p : TxProvider σ T) (micros : σ → Nat) (tx : T) (s : σ) : σ :=
  if (p.options tx s).hasCommitTime then s else p.stamp tx (micros s) s

/-- Runs work in a transaction of its own. `micros` is the wall time in microseconds. -/
def perform (p : TxProvider σ T) (micros : σ → Nat) (work : T → Act σ α) : Act σ α := do
  let tx ← p.openTx
  Act.update (p.stampNow micros tx)
  match ← (work tx).attempt with
  | .ok value =>
    p.commit tx
    return value
  | .error f =>
    let _ ← (p.rollback tx).attempt
    throw f

/-- Runs work again and again, each time in a new transaction, as an operation. -/
def performRepeatedly [Timed σ] (p : TxProvider σ T) (op : Operation σ) (micros : σ → Nat)
    (work : T → Act σ α) : Act σ α :=
  op.run (p.perform micros work)

end TxProvider

end RowGraph
