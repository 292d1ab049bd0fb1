import RowGraph.Storage.Clock
import RowGraph.Storage.Locks
import RowGraph.Storage.Metrics
import RowGraph.Storage.Backend

/-!
# Logged calls and planned failures

A backend and a lock service whose calls are logged, each with what it is about. A call for which a
failure is planned is logged with an exclamation mark and not made. The plans of a call are used up
one after another; without a plan a call is made.
-/

namespace RowGraph

/-- The calls that are logged. -/
inductive CallName where
  | openStore
  | beginTx
  | read
  | mutate
  | mutateMany
  | commit
  | rollback
  | close
  | writeLock
  | checkLocks
  | releaseLocks
  deriving DecidableEq, Repr

namespace CallName

/-- All calls. -/
def all : List CallName :=
  [openStore, beginTx, read, mutate, mutateMany, commit, rollback, close, writeLock, checkLocks,
    releaseLocks]

/-- The name of a call in the log. -/
def name : CallName → String
  | openStore => "open_database"
  | beginTx => "begin_transaction"
  | read => "get_slice"
  | mutate => "mutate"
  | mutateMany => "mutate_many"
  | commit => "commit"
  | rollback => "rollback"
  | close => "close"
  | writeLock => "lock_write"
  | checkLocks => "lock_check"
  | releaseLocks => "lock_delete"

/-- The call with a name. -/
def ofName? (s : String) : Option CallName := all.find? (fun c => c.name == s)

end CallName

/-- The plan of a call and of all later calls of the same name. -/
structure Plan where
  call : CallName
  /-- The failure planned for the next call, if any, and for those after it. -/
  outcomes : List (Option Failure)

/-- A state with a log and plans. -/
structure Watched (σ : Type) where
  base : σ
  log : List String
  plans : List Plan
  deriving Inhabited

namespace Watched

variable {σ S T L α : Type}

/-- Nothing logged, nothing planned. -/
def new (base : σ) : Watched σ := ⟨base, [], []⟩

instance [Timed σ] : Timed (Watched σ) :=
  ⟨fun s => Timed.clock s.base, fun s c => { s with base := Timed.setClock s.base c }⟩

instance [Metered σ] : Metered (Watched σ) :=
  ⟨fun s => Metered.metrics s.base, fun s m => { s with base := Metered.setMetrics s.base m }⟩

/-- Plans the outcomes of further calls. -/
def plan (s : Watched σ) (call : CallName) (outcomes : List (Option Failure)) : Watched σ :=
  { s with plans := s.plans ++ [⟨call, outcomes⟩] }

/-- The outcome planned next for a call, and the plans that remain. -/
def takePlan (call : CallName) : List Plan → Option Failure × List Plan
  | [] => (none, [])
  | p :: rest =>
    if p.call = call then
      match p.outcomes with
      | [] =>
        let (next, rest) := takePlan call rest
        (next, rest)
      | next :: later => (next, ⟨call, later⟩ :: rest)
    else
      let (next, rest) := takePlan call rest
      (next, p :: rest)

/-- Logs a call and makes it, unless a failure is planned for it. -/
def call (name : CallName) (detail : σ → String) (act : Act σ α) : Act (Watched σ) α :=
  Act.of fun s =>
    let (planned, plans) := takePlan name s.plans
    let line := name.name ++ ":" ++ detail s.base
    match planned with
    | some f => (.error f, { s with log := s.log ++ [line ++ "!"], plans := plans })
    | none =>
      let (result, base) := act.exec s.base
      (result, { base := base, log := s.log ++ [line], plans := plans })

/-- A read in the log. -/
def readDetail (tx : Nat) (key : Bytes) (slice : Slice) : String :=
  toString tx ++ ":" ++ key.toHex ++ ":" ++ slice.start.toHex ++ ":" ++ slice.stop.toHex ++ ":" ++
    match slice.limit with
    | some n => toString n
    | none => "-"

/-- The backend whose calls are logged. Native locks are not. -/
def backend (b : Backend σ S T) : Backend (Watched σ) S T :=
  let ofTx (tx : T) (s : σ) : String := toString (b.txId tx s)
  { b.within base (fun s t => { s with base := t }) with
    openStore := fun name => call .openStore (fun _ => name) (b.openStore name)
    read := fun store key slice tx =>
      call .read (fun s => readDetail (b.txId tx s) key slice) (b.read store key slice tx)
    mutate := fun store key m tx => call .mutate (ofTx tx) (b.mutate store key m tx)
    mutateMany := fun batch tx => call .mutateMany (ofTx tx) (b.mutateMany batch tx)
    beginTx := fun o => call .beginTx (fun _ => "") (b.beginTx o)
    commit := fun tx => call .commit (ofTx tx) (b.commit tx)
    rollback := fun tx => call .rollback (ofTx tx) (b.rollback tx)
    close := call .close (fun _ => "") b.close }

/-- The lock service whose calls are logged. -/
def locks (l : LockService σ L) : LockService (Watched σ) L where
  locker := fun name => (l.locker name).on base fun t s => { s with base := t }
  write := fun locker target owner =>
    call .writeLock (fun _ => toString owner) (l.write locker target owner)
  check := fun locker owner => call .checkLocks (fun _ => toString owner) (l.check locker owner)
  release := fun locker owner =>
    call .releaseLocks (fun _ => toString owner) (l.release locker owner)

end Watched

end RowGraph
