import RowGraph.Bytes
import RowGraph.Decimal.Binary64
import RowGraph.Identifier

/-!
# Values

What a property or a sort key holds. `Value.cmp` orders all values, values of different kinds by
kind, floating-point numbers by their patterns; it is equal only on equal values. A predicate
compares differently: `Value.compare?` takes whole and floating-point numbers as numbers and finds
other mixtures incomparable.
-/

namespace RowGraph

/-- The kinds of values, in their order. -/
inductive ValueKind where
  | bool
  | int
  | float
  | string
  | vertex
  deriving DecidableEq, Repr

/-- The place of a kind among the kinds. -/
def ValueKind.place : ValueKind → Nat
  | .bool => 0
  | .int => 1
  | .float => 2
  | .string => 3
  | .vertex => 4

instance : Ord ValueKind := ⟨fun a b => compare a.place b.place⟩

/-- The name of a kind. -/
def ValueKind.name : ValueKind → String
  | .bool => "Bool"
  | .int => "Int"
  | .float => "Float"
  | .string => "String"
  | .vertex => "Vertex"

/-- A property or sort-key value. -/
inductive Value where
  | bool (b : Bool)
  | int (i : Int64)
  | float (x : Binary64)
  | string (s : String)
  | vertex (v : VertexId)
  deriving DecidableEq, Repr, Inhabited

namespace Value

/-- The kind of a value. -/
def kind : Value → ValueKind
  | bool _ => .bool
  | int _ => .int
  | float _ => .float
  | string _ => .string
  | vertex _ => .vertex

/-- The vertex a value refers to. -/
def vertex? : Value → Option VertexId
  | vertex v => some v
  | _ => none

/-- The order of all values: by kind, then false before true, numbers by size, floating-point
patterns by rank, texts by their bytes, vertices by number. -/
def cmp : Value → Value → Ordering
  | bool a, bool b => compare a b
  | int a, int b => compare a b
  | float a, float b => compare a b
  | string a, string b => compare (Bytes.ofText a) (Bytes.ofText b)
  | vertex a, vertex b => compare a b
  | a, b => compare a.kind b.kind

instance : Ord Value := ⟨cmp⟩

/-- How a predicate compares: numbers by value across the two kinds of numbers, values of one kind
in the order of all values, anything else not at all. -/
def compare? : Value → Value → Option Ordering
  | int a, float b => Binary64.compareValues? (.ofInt a.toInt) b
  | float a, int b => Binary64.compareValues? a (.ofInt b.toInt)
  | a, b => if a.kind = b.kind then some (cmp a b) else none

/-- Compares values that may be absent; an absent one is greatest. -/
def cmpAbsentLast : Option Value → Option Value → Ordering
  | some a, some b => compare a b
  | none, none => .eq
  | none, some _ => .gt
  | some _, none => .lt

/-- Values in the order of all values. -/
def sort (values : List Value) : List Value := values.mergeSort fun a b => (compare a b).isLE

end Value

end RowGraph
