import RowGraph.Word

/-!
# Limits of reads

A query with a limit asks the store for no more than it needs. Where conditions are left to be
checked after reading, each is expected to discard about half of what is read, and the limit is
doubled for it; uncommitted changes ask for a few more. All limits are numbers of 64 bits: a product
or a sum that would exceed them stays at the greatest.
-/

namespace RowGraph.ReadLimit

/-- The greatest limit, which stands for none at all in a query. -/
def most : Nat := Word.bound64 - 1

/-- At most so many of some results; the greatest limit cuts nothing. -/
def cut {α : Type} (limit : Nat) (results : List α) : List α :=
  if limit = most then results else results.take limit

/-- The ceiling of inflated limits. -/
def ceiling : Nat := Word.bound31 - 1

/-- A product that stays within the limits. -/
def times (a b : Nat) : Nat := min (a * b) most

/-- A sum that stays within the limits. -/
def plus (a b : Nat) : Nat := min (a + b) most

/-- What `remaining` conditions multiply a limit by. -/
def factor (remaining : Nat) : Nat := Nat.pow 2 (min remaining 31)

/-- A limit inflated for the conditions that are left to check and for uncommitted changes. -/
def inflated (modified : Bool) (remaining limit : Nat) : Nat :=
  let limit := max limit 1
  let scaled := times limit (max (min (factor remaining) (ceiling / limit)) 1)
  if modified then plus scaled 5 else scaled

/-- The limit of a read: inflated, but not beyond `hardMax` unless the query itself asks for more.
Without a limit there is none. -/
def forRead (remaining : Nat) (base : Option Nat) (hardMax : Nat) (modified : Bool) : Option Nat :=
  base.map fun b => max b (min hardMax (inflated modified remaining b))

/-- Twice a limit if it is small; both ends of the relations of a vertex are read at once. -/
def doubled (limit : Nat) : Nat := if limit < ceiling / 3 then limit * 2 else limit

/-- The limit of the next attempt after a read that yielded too little. -/
def next (current hardMax : Nat) : Nat := min (times current 2) hardMax

end RowGraph.ReadLimit
