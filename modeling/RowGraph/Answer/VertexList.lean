import RowGraph.Identifier

/-!
# Lists of vertices

The vertices that a query finds, with a mark that says whether they are known to be in increasing
order.
-/

namespace RowGraph

/-- Vertices in some order. -/
structure VertexList where
  ids : List VertexId
  /-- Are they known to be in increasing order? -/
  sorted : Bool
  deriving DecidableEq, Repr, Inhabited

namespace VertexList

/-- No vertex, and known to be sorted. -/
def empty : VertexList := ⟨[], true⟩

/-- No vertex, and not known to be sorted. -/
def unmarked : VertexList := ⟨[], false⟩

/-- Is each vertex at least the one before it? -/
def ascends : List VertexId → Bool
  | [] => true
  | [_] => true
  | a :: b :: rest => (compare a b).isLE && ascends (b :: rest)

/-- The given vertices; they are looked through for their order. -/
def ofIds (ids : List VertexId) : VertexList := ⟨ids, ascends ids⟩

/-- One more vertex at the end. -/
def add (l : VertexList) (v : VertexId) : VertexList :=
  ⟨l.ids ++ [v], l.sorted && (l.ids.getLast?.all fun last => (compare last v).isLE)⟩

/-- All vertices of another list at the end. -/
def addAll (l : VertexList) (other : VertexList) : VertexList := other.ids.foldl add l

/-- The vertices of a list added one after another. -/
def collect (ids : List VertexId) : VertexList := ids.foldl add empty

/-- The vertices in increasing order. -/
def sort (l : VertexList) : VertexList :=
  if l.sorted then l else ⟨l.ids.mergeSort fun a b => (compare a b).isLE, true⟩

/-- The vertices from one position up to but not including another, as far as there are any. -/
def subList (l : VertexList) (first stop : Nat) : VertexList :=
  ⟨(l.ids.take stop).drop first, l.sorted⟩

/-- The first vertices. -/
def truncate (l : VertexList) (size : Nat) : VertexList := ⟨l.ids.take size, l.sorted⟩

/-- The number of vertices. -/
def size (l : VertexList) : Nat := l.ids.length

/-- Is there no vertex? -/
def isEmpty (l : VertexList) : Bool := l.ids.isEmpty

end VertexList

end RowGraph
