import RowGraph.Bytes

/-!
# Slices

A row is read by slices: the columns from `start` up to but not including `stop`, at most `limit`
of them, in column order.
-/

namespace RowGraph

/-- A column with its value. -/
structure Entry where
  column : Bytes
  value : Bytes
  deriving DecidableEq, Repr, Inhabited

/-- A range of columns, and how many of them are wanted at most. -/
structure Slice where
  start : Bytes
  stop : Bytes
  limit : Option Nat
  deriving DecidableEq, Repr, Inhabited

/-- Text between double quotes, none of whose characters needs an escape. -/
def quotedHex (s : Bytes) : String := "\"" ++ s.toHex ++ "\""

/-- An entry for a log. -/
def Entry.debugText (e : Entry) : String :=
  "Entry \x7b column: " ++ quotedHex e.column ++ ", value_len: " ++ toString e.value.length
    ++ " \x7d"

namespace Slice

/-- The same range with another limit. -/
def withLimit (s : Slice) (limit : Option Nat) : Slice := { s with limit := limit }

/-- Is there a limit? -/
def hasLimit (s : Slice) : Bool := s.limit.isSome

/-- Does a column lie in the range? -/
def contains (s : Slice) (column : Bytes) : Bool :=
  (compare s.start column).isLE && column.before s.stop

/-- Does reading `a` return everything that reading `b` returns, as far as the ranges and the
limits tell? -/
def subsumes (a b : Slice) : Bool :=
  (compare a.start b.start).isLE && (compare b.stop a.stop).isLE &&
    match a.limit, b.limit with
    | none, _ => true
    | some mine, some theirs => decide (theirs ≤ mine)
    | some _, none => false

/-- A slice for a log. -/
def debugText (s : Slice) : String :=
  let limit := match s.limit with
    | some n => "Some(" ++ toString n ++ ")"
    | none => "None"
  "SliceQuery \x7b start: " ++ quotedHex s.start ++ ", end: " ++ quotedHex s.stop ++ ", limit: "
    ++ limit ++ " \x7d"

end Slice

end RowGraph
