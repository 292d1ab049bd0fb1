/-!
# Binary heaps

What waits in a binary heap is kept in a vector: below place `i` are the places `2 * i + 1` and
`2 * i + 2`. Nothing is after what is below it, so that the first place holds what comes first.
-/

namespace RowGraph

namespace BinaryHeap

variable {β : Type} {n : Nat} (cmp : β → β → Ordering)

/-- Swaps what is at two places. -/
def swapAt (heap : Vector β n) (i j : Fin n) : Vector β n :=
  heap.swap i j i.isLt j.isLt

/-- Of the places below a place the one that comes first; of equal ones the left. -/
def firstChild? (heap : Vector β n) (pos : Fin n) : Option { child : Fin n // pos < child } :=
  if hleft : 2 * pos.val + 1 < n then
    let left : { child : Fin n // pos < child } :=
      ⟨⟨2 * pos.val + 1, hleft⟩, show pos.val < 2 * pos.val + 1 by omega⟩
    if hright : 2 * pos.val + 2 < n then
      let right : { child : Fin n // pos < child } :=
        ⟨⟨2 * pos.val + 2, hright⟩, show pos.val < 2 * pos.val + 2 by omega⟩
      if (cmp (heap.get right) (heap.get left)).isLT then some right else some left
    else some left
  else none

/-- Swaps what is at a place with what comes first below it, as long as that goes before it. -/
def siftDown (heap : Vector β n) (pos : Fin n) : Vector β n :=
  match firstChild? cmp heap pos with
  | none => heap
  | some child =>
    if (cmp (heap.get child) (heap.get pos)).isLT then siftDown (swapAt heap pos child) child
    else heap
termination_by n - pos.val
decreasing_by exact Nat.sub_lt_sub_left pos.isLt child.2

/-- The place above a place. -/
def parent (pos : Fin n) : Fin n :=
  ⟨(pos.val - 1) / 2, Nat.lt_of_le_of_lt (Nat.le_trans (Nat.div_le_self _ _) (Nat.sub_le _ _)) pos.isLt⟩

/-- Swaps what is at a place with what is above it, as long as it goes before that. -/
def siftUp (heap : Vector β n) (pos : Fin n) : Vector β n :=
  if 0 < pos.val then
    if (cmp (heap.get pos) (heap.get (parent pos))).isLT then
      siftUp (swapAt heap pos (parent pos)) (parent pos)
    else heap
  else heap
termination_by pos.val
decreasing_by
  rename_i hpos _
  exact Nat.lt_of_le_of_lt (Nat.div_le_self _ _) (Nat.sub_lt hpos Nat.one_pos)

/-- Sifts down what is at the first `k` places, the last of them first. -/
def heapify (heap : Vector β n) : (k : Nat) → k ≤ n → Vector β n
  | 0, _ => heap
  | k + 1, hk => heapify (siftDown cmp heap ⟨k, hk⟩) k (Nat.le_of_lt hk)

/-- A heap of items. Places from the half on have none below them. -/
def ofVector (items : Vector β n) : Vector β n :=
  heapify cmp items (n / 2) (Nat.div_le_self n 2)

/-- The first place. -/
def first : Fin (n + 1) := ⟨0, Nat.succ_pos n⟩

/-- What is left without the first: the last takes its place and is sifted down. -/
def pop (heap : Vector β (n + 1)) : Vector β n :=
  let rest := (swapAt heap first (Fin.last n)).pop
  if h : 0 < n then siftDown cmp rest ⟨0, h⟩ else rest

/-- Adds an item at the end and sifts it up. -/
def push (heap : Vector β n) (item : β) : Vector β (n + 1) :=
  siftUp cmp (heap.push item) (Fin.last n)

end BinaryHeap

end RowGraph
