import RowGraph.Answer.BinaryHeap

/-!
# Merging streams

Several streams are merged by taking, again and again, the least of their heads; of equal heads that
of the earliest stream goes first. The heads wait in a binary heap. Streams need not be sorted, each
keeps its order.
-/

namespace RowGraph

/-- The head of a stream, with the place of the stream among all. -/
structure StreamHead (α : Type) where
  item : α
  index : Nat
  deriving Repr

/-- The order in which heads are taken. -/
def StreamHead.order {α : Type} (cmp : α → α → Ordering) (a b : StreamHead α) : Ordering :=
  (cmp a.item b.item).then (compare a.index b.index)

/-- The heads of the streams that are not exhausted; the first stream has the given index. -/
def streamHeads {α : Type} : (index : Nat) → List (List α) → List (StreamHead α)
  | _, [] => []
  | index, [] :: streams => streamHeads (index + 1) streams
  | index, (item :: _) :: streams => ⟨item, index⟩ :: streamHeads (index + 1) streams

/-- A merge under way: the heads that wait, and what follows the head of each stream. -/
structure StreamMerge (α : Type) where
  size : Nat
  heads : Vector (StreamHead α) size
  streams : List (List α)

namespace StreamMerge

variable {α : Type} (cmp : α → α → Ordering)

/-- The merge of streams of which nothing has been taken. -/
def ofStreams (streams : List (List α)) : StreamMerge α :=
  let heads := (streamHeads 0 streams).toArray
  ⟨heads.size, BinaryHeap.ofVector (StreamHead.order cmp) heads.toVector, streams.map List.tail⟩

/-- The least head, and the merge after its stream has moved on. -/
def next? : StreamMerge α → Option (StreamHead α × StreamMerge α)
  | ⟨0, _, _⟩ => none
  | ⟨n + 1, heads, streams⟩ =>
    let head := heads.get BinaryHeap.first
    let waiting := BinaryHeap.pop (StreamHead.order cmp) heads
    match streams[head.index]? with
    | some (item :: rest) =>
      some (head, ⟨n + 1, BinaryHeap.push (StreamHead.order cmp) waiting ⟨item, head.index⟩,
        streams.set head.index rest⟩)
    | _ => some (head, ⟨n, waiting, streams⟩)

/-- The first items of a merge, at most so many. -/
def take : (count : Nat) → StreamMerge α → List α
  | 0, _ => []
  | count + 1, merge =>
    match merge.next? cmp with
    | none => []
    | some (head, merge) => head.item :: take count merge

end StreamMerge

/-- All items of several streams, merged. -/
def mergeStreams {α : Type} (cmp : α → α → Ordering) (streams : List (List α)) : List α :=
  (StreamMerge.ofStreams cmp streams).take cmp streams.flatten.length

end RowGraph
