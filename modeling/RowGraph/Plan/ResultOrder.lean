import RowGraph.Relation

/-!
# The order of results

A query may ask for its results in the order of some keys, all ascending or all descending. A
relation without a value for a key counts as holding the greatest one.
-/

namespace RowGraph

/-- The keys that order results, the most significant first, and their common direction. -/
structure ResultOrder where
  keys : List TypeId
  direction : Option SortOrder
  deriving DecidableEq, Repr, Inhabited

namespace ResultOrder

/-- Results in any order. -/
def none : ResultOrder := ⟨[], .none⟩

/-- The order refined by one more key; absent if the direction differs from the common one. A key
that is there already adds nothing. -/
def add? (o : ResultOrder) (key : TypeId) (direction : SortOrder) : Option ResultOrder :=
  if o.direction.any (· != direction) then .none
  else some ⟨if o.keys.contains key then o.keys else o.keys ++ [key], some direction⟩

/-- The order by some keys, and which of them it takes; one that it does not take changes
nothing. -/
def ofKeys (keys : List (TypeId × SortOrder)) : ResultOrder × List Bool :=
  keys.foldl (fun (o, taken) k =>
    match o.add? k.1 k.2 with
    | some o => (o, taken ++ [true])
    | .none => (o, taken ++ [false])) (none, [])

/-- Is any order as good? -/
def isEmpty (o : ResultOrder) : Bool := o.keys.isEmpty

/-- Compares by the keys one after another, ascending. -/
def cmpAscending (base : VertexId) (a b : Relation) : List TypeId → Ordering
  | [] => .eq
  | key :: rest =>
    (Value.cmpAbsentLast (a.valueOf key base) (b.valueOf key base)).then
      (cmpAscending base a b rest)

/-- Compares two relations seen from `base`. -/
def cmp (o : ResultOrder) (base : VertexId) (a b : Relation) : Ordering :=
  (o.direction.getD .asc).apply (cmpAscending base a b o.keys)

/-- Relations in this order; what compares equal stays as it was. -/
def sort (o : ResultOrder) (base : VertexId) (relations : List Relation) : List Relation :=
  relations.mergeSort fun a b => (o.cmp base a b).isLE

end ResultOrder

end RowGraph
