import RowGraph.Relation

/-!
# Conditions on relations

A condition is a tree of conjunctions and disjunctions over simple tests, evaluated on a relation
seen from a base vertex.
-/

namespace RowGraph

/-- A comparison in a predicate. -/
inductive Comparison where
  | eq
  | ne
  | lt
  | le
  | gt
  | ge
  deriving DecidableEq, Repr

namespace Comparison

/-- Does an order of two values satisfy the comparison? -/
def accepts : Comparison → Ordering → Bool
  | eq, o => o == .eq
  | ne, o => o != .eq
  | lt, o => o == .lt
  | le, o => o != .gt
  | gt, o => o == .gt
  | ge, o => o != .lt

/-- Are two values, either of which may be absent, equal for a predicate? -/
def equal (actual expected : Option Value) : Bool :=
  match actual, expected with
  | none, none => true
  | some a, some e => Value.compare? a e == some .eq
  | _, _ => false

/-- Does the actual value satisfy the comparison with the expected one? Absent values are equal to
each other and to nothing else, and have no place in the order. -/
def evaluate (c : Comparison) (actual expected : Option Value) : Bool :=
  match c with
  | eq => equal actual expected
  | ne => !equal actual expected
  | c =>
    match actual, expected with
    | some a, some e =>
      match Value.compare? a e with
      | some o => c.accepts o
      | none => false
    | _, _ => false

end Comparison

/-- A condition on a relation. -/
inductive Condition where
  | and (children : List Condition)
  | or (children : List Condition)
  /-- The value of a key compares with an expected one. -/
  | predicate (key : TypeId) (comparison : Comparison) (value : Option Value)
  /-- The relation is of a category. -/
  | category (c : Category)
  /-- The type belongs to the system, or does not. -/
  | visibility (system : Bool)
  /-- The type is one of the given ones. -/
  | relationType (types : List TypeId)
  /-- A vertex sits at an end. -/
  | direction (vertex : VertexId) (d : Direction)
  /-- The relation connects two vertices. -/
  | incidence (vertex adjacent : VertexId)
  deriving Repr, Inhabited

namespace Condition

mutual

/-- Are two conditions the same tree? -/
def same : Condition → Condition → Bool
  | and a, and b => sameAll a b
  | or a, or b => sameAll a b
  | predicate k c v, predicate k' c' v' => k == k' && c == c' && v == v'
  | category c, category c' => c == c'
  | visibility s, visibility s' => s == s'
  | relationType t, relationType t' => t == t'
  | direction v d, direction v' d' => v == v' && d == d'
  | incidence v a, incidence v' a' => v == v' && a == a'
  | _, _ => false

/-- Are two lists of conditions the same? -/
def sameAll : List Condition → List Condition → Bool
  | [], [] => true
  | a :: as, b :: bs => same a b && sameAll as bs
  | _, _ => false

end

instance : BEq Condition := ⟨same⟩

/-- The children of a conjunction or a disjunction. -/
def children : Condition → List Condition
  | and cs => cs
  | or cs => cs
  | _ => []

/-- Is it neither a conjunction nor a disjunction? -/
def isLeaf : Condition → Bool
  | and _ => false
  | or _ => false
  | _ => true

/-- Does the relation fall under a category? -/
def inCategory (c : Category) (r : Relation) : Bool := c == .relation || r.category == c

mutual

/-- Does the condition hold for a relation seen from `base`? -/
def evaluate (r : Relation) (base : VertexId) : Condition → Bool
  | and cs => holdsAll r base cs
  | or cs => holdsAny r base cs
  | predicate key comparison value => comparison.evaluate (r.valueOf key base) value
  | category c => inCategory c r
  | visibility system => r.typeId.isSystem == system
  | relationType types => types.contains r.typeId
  | direction v d => r.sitsAt v d
  | incidence v adjacent => r.isIncident v && r.otherVertex? v == some adjacent

/-- Do all conditions hold? -/
def holdsAll (r : Relation) (base : VertexId) : List Condition → Bool
  | [] => true
  | c :: cs => evaluate r base c && holdsAll r base cs

/-- Does any condition hold? -/
def holdsAny (r : Relation) (base : VertexId) : List Condition → Bool
  | [] => false
  | c :: cs => evaluate r base c || holdsAny r base cs

end

/-- The key and the values, if every alternative says that one and the same key has a value. -/
def equalityPoints? : List Condition → Option (TypeId × List Value)
  | [] => none
  | [predicate key .eq (some v)] => some (key, [v])
  | predicate key .eq (some v) :: rest =>
    match equalityPoints? rest with
    | some (key', values) => if key = key' then some (key, v :: values) else none
    | none => none
  | _ => none

/-- A conjunction of a single simple test is that test. -/
def unwrapped : Condition → Condition
  | and [c] => if c.isLeaf then c else and [c]
  | c => c

end Condition

end RowGraph
