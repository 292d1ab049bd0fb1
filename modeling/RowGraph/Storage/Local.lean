import RowGraph.Storage.Locks
import RowGraph.Storage.Memory
import RowGraph.Storage.Metrics

/-!
# A backend and lockers in one process

Memory, lockers, a clock and counters side by side: the backend in memory and the lock service with
leases, both reading the one clock.
-/

namespace RowGraph

/-- Memory, lockers, a clock and counters. -/
structure Local where
  memory : Memory
  lockers : Lockers
  clock : Clock
  metrics : Metrics
  deriving Inhabited

namespace Local

/-- Nothing stored, nothing locked, nothing counted. -/
def new : Local := ⟨.new, .empty, .new, .zero⟩

instance : Timed Local := ⟨Local.clock, fun s c => { s with clock := c }⟩

instance : Metered Local := ⟨Local.metrics, fun s m => { s with metrics := m }⟩

/-- The backend in memory. -/
def backend (features : Features) : Backend Local StoreHandle TxHandle :=
  (Memory.backend features).within memory fun s m => { s with memory := m }

/-- The lock service whose locks last for a lease. A locker is known by its name. -/
def locks (lease : Nanos) : LockService Local String where
  locker := fun name => return name
  write := fun name target owner => Act.of fun s =>
    match s.lockers.write (now s) lease name owner target with
    | .ok lockers => (.ok (), { s with lockers := lockers })
    | .error f => (.error f, s)
  check := fun name owner => Act.of fun s => (s.lockers.check (now s) name owner, s)
  release := fun name owner => Act.update fun s =>
    { s with lockers := s.lockers.release name owner }

end Local

/-- What can be done with lockers alone. -/
inductive LockStep where
  /-- Begins a transaction. -/
  | begun
  | advance (d : Nanos)
  | held (locker : String)
  | write (locker : String) (owner : Nat) (target : LockTarget)
  | check (locker : String) (owner : Nat)
  | release (locker : String) (owner : Nat)
  deriving DecidableEq, Repr

namespace LockStep

/-- What a step reports. -/
inductive Report where
  | done
  /-- The number of a transaction. -/
  | began (tx : Nat)
  /-- The time since the clock was made. -/
  | time (d : Nanos)
  /-- How many locks a locker holds. -/
  | holds (locker : String) (locks : Nat)

/-- Carries a step out, with locks that last for a lease. -/
def run (lease : Nanos) : LockStep → Act Local Report
  | .begun => do
    let tx ← (Local.backend Memory.defaultFeatures).beginTx .none
    return .began tx.number
  | .advance d => do
    Act.update (passTime d)
    return .time (← Act.asks now)
  | .held locker => do return .holds locker (← Act.asks fun s => s.lockers.heldCount locker)
  | .write locker owner target => do
    (Local.locks lease).write locker target owner
    return .done
  | .check locker owner => do
    (Local.locks lease).check locker owner
    return .done
  | .release locker owner => do
    (Local.locks lease).release locker owner
    return .done

/-- The reports of all steps; the sequence goes on after a failure. -/
def reports (lease : Nanos) : List LockStep → Local → List (Outcome Report)
  | [], _ => []
  | step :: rest, s =>
    let (report, s) := (run lease step).exec s
    report :: reports lease rest s

end LockStep

end RowGraph
