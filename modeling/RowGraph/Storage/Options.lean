import RowGraph.SortedMap

/-!
# Options of transactions and features of backends

A transaction may be begun with a commit time, the name of a group and options of the backend. A
backend says what it can do, and which options a transaction needs to be key-consistent.
-/

namespace RowGraph

/-- What a transaction is begun with. -/
structure TxOptions where
  /-- The time of the commit in microseconds. -/
  commitTime : Option Nat
  group : Option String
  custom : SortedMap String String
  deriving DecidableEq, Repr, Inhabited

namespace TxOptions

/-- Nothing special. -/
def none : TxOptions := ⟨.none, .none, .empty⟩

/-- Is the commit time given? -/
def hasCommitTime (o : TxOptions) : Bool := o.commitTime.isSome

/-- The options with a commit time. -/
def stamped (o : TxOptions) (micros : Nat) : TxOptions := { o with commitTime := some micros }

/-- One more option of the backend; it replaces an earlier one of the same name. -/
def withOption (o : TxOptions) (key value : String) : TxOptions :=
  { o with custom := o.custom.put key value }

/-- The value of an option of the backend. -/
def option? (o : TxOptions) (key : String) : Option String := o.custom.get? key

/-- The options, overridden by what is required. -/
def mergedWith (o : TxOptions) (required : SortedMap String String) : TxOptions :=
  required.toList.foldl (fun o b => o.withOption b.1 b.2) o

end TxOptions

/-- What a backend can do. -/
structure Features where
  orderedScan : Bool
  unorderedScan : Bool
  batchMutation : Bool
  locking : Bool
  keyConsistent : Bool
  /-- What a transaction must carry to be key-consistent. -/
  required : SortedMap String String
  deriving DecidableEq, Repr, Inhabited

end RowGraph
