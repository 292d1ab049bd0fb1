import RowGraph.Value

/-!
# Intervals of values

What a key may hold: one of finitely many points, kept sorted and without repetition, or anything
between two bounds. A closed range over one value is that point. An intersection holds exactly the
values of both.
-/

namespace RowGraph

/-- One end of a range. -/
inductive Bound where
  | unbounded
  | included (v : Value)
  | excluded (v : Value)
  deriving DecidableEq, Repr, Inhabited

namespace Bound

/-- The value at the end of the range. -/
def value? : Bound → Option Value
  | unbounded => none
  | included v => some v
  | excluded v => some v

/-- Is `v` on the inner side of a lower bound? -/
def allowsAbove (b : Bound) (v : Value) : Bool :=
  match b with
  | unbounded => true
  | included s => (compare s v).isLE
  | excluded s => compare s v == .lt

/-- Is `v` on the inner side of an upper bound? -/
def allowsBelow (b : Bound) (v : Value) : Bool :=
  match b with
  | unbounded => true
  | included e => (compare v e).isLE
  | excluded e => compare v e == .lt

/-- Of two bounds at one value, the one that leaves the value out, if any. -/
def stricter (a b : Bound) : Bound :=
  match a with
  | excluded _ => a
  | _ => b

/-- The lower bound that allows what both allow. -/
def tighterLower (a b : Bound) : Bound :=
  match a.value?, b.value? with
  | none, _ => b
  | _, none => a
  | some x, some y =>
    match compare x y with
    | .gt => a
    | .lt => b
    | .eq => stricter a b

/-- The upper bound that allows what both allow. -/
def tighterUpper (a b : Bound) : Bound :=
  match a.value?, b.value? with
  | none, _ => b
  | _, none => a
  | some x, some y =>
    match compare x y with
    | .lt => a
    | .gt => b
    | .eq => stricter a b

end Bound

/-- A set of values. -/
inductive Interval where
  /-- Points in increasing order. -/
  | points (values : List Value)
  /-- The values between two bounds. -/
  | range (lower upper : Bound)
  deriving DecidableEq, Repr, Inhabited

namespace Interval

/-- The one value. -/
def point (v : Value) : Interval := points [v]

/-- Drops every value that equals the one before it. -/
def dropRepeats : List Value → List Value
  | [] => []
  | v :: rest =>
    match dropRepeats rest with
    | [] => [v]
    | w :: tail => if v = w then w :: tail else v :: w :: tail

/-- The given values. -/
def ofValues (values : List Value) : Interval :=
  points (dropRepeats (values.mergeSort (fun a b => (compare a b).isLE)))

/-- The values between two bounds; a closed range over one value is a point. -/
def between (lower upper : Bound) : Interval :=
  match lower, upper with
  | .included a, .included b => if a = b then point a else range lower upper
  | _, _ => range lower upper

/-- Every value. -/
def all : Interval := range .unbounded .unbounded

/-- Is it plain that no value lies in the interval? -/
def isEmpty : Interval → Bool
  | points values => values.isEmpty
  | range lower upper =>
    match lower.value?, upper.value? with
    | some a, some b =>
      match lower, upper with
      | .included _, .included _ => compare a b == .gt
      | _, _ => (compare b a).isLE
    | _, _ => false

/-- Are the values given one by one? -/
def isPoints : Interval → Bool
  | points _ => true
  | range .. => false

/-- The values, if they are given one by one. -/
def points? : Interval → Option (List Value)
  | points values => some values
  | range .. => none

/-- The bounds, if there are any. -/
def bounds? : Interval → Option (Bound × Bound)
  | points _ => none
  | range lower upper => some (lower, upper)

/-- Is there an upper end? -/
def hasEnd : Interval → Bool
  | range _ .unbounded => false
  | _ => true

/-- Does a value lie in the interval? -/
def contains (i : Interval) (v : Value) : Bool :=
  match i with
  | points values => values.contains v
  | range lower upper => lower.allowsAbove v && upper.allowsBelow v

/-- The values that lie in both. -/
def intersect : Interval → Interval → Interval
  | points a, b => points (a.filter b.contains)
  | range l u, points b => points (b.filter (range l u).contains)
  | range l u, range l' u' => between (l.tighterLower l') (u.tighterUpper u')

end Interval

end RowGraph
