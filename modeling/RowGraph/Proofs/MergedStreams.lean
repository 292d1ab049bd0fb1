import Mathlib.Data.List.Basic
import RowGraph.Answer.Merge
import RowGraph.Proofs.BinaryHeaps

/-!
# Merged streams

What a merge takes is said without a heap by `Merges`: again and again the least of all heads, of equal
ones that of the earliest stream.  A merge under way has the heads of its streams waiting in a heap
(`StreamMerge.Waits`), which taking a head preserves, so that the heap gives just that.

* `mergeStreams_stable`: the merge takes the least heads, keeps each stream, and is the stable sort of
  all items if the streams are sorted.
* `perm_mergeStreams`: merging loses nothing and makes nothing up.
* `pairwise_mergeStreams`: merging sorted streams gives a sorted list.
-/

namespace RowGraph

variable {α : Type} {cmp : α → α → Ordering} {streams : List (List α)} {taken : List (StreamHead α)}

/-- No head of a stream is less, and no head of an earlier stream is equal. -/
def LeastHead (cmp : α → α → Ordering) (streams : List (List α)) (head : StreamHead α) : Prop :=
  ∀ i other rest, streams[i]? = some (other :: rest) →
    (cmp head.item other).isLE ∧ (cmp head.item other = .eq → head.index ≤ i)

/-- Least heads are taken one after another until all streams are exhausted. -/
inductive Merges (cmp : α → α → Ordering) : List (List α) → List (StreamHead α) → Prop
  | done {streams : List (List α)} (h : ∀ stream ∈ streams, stream = []) : Merges cmp streams []
  | take {streams : List (List α)} {head : StreamHead α} {rest : List α} {taken : List (StreamHead α)}
      (hhead : streams[head.index]? = some (head.item :: rest)) (hleast : LeastHead cmp streams head)
      (hrest : Merges cmp (streams.set head.index rest) taken) : Merges cmp streams (head :: taken)

/-! ## Streams that are taken from -/

theorem exists_split {i : Nat} {stream : List α} (h : streams[i]? = some stream) :
    ∃ before after, streams = before ++ stream :: after ∧ before.length = i ∧
      ∀ rest, streams.set i rest = before ++ rest :: after := by
  obtain ⟨hi, rfl⟩ := List.getElem?_eq_some_iff.mp h
  refine ⟨streams.take i, streams.drop (i + 1), ?_, List.length_take_of_le hi.le, fun rest => ?_⟩
  · rw [← List.drop_eq_getElem_cons hi, List.take_append_drop]
  · rw [List.set_eq_take_append_cons_drop, if_pos hi]

theorem perm_flatten_set {i : Nat} {item : α} {rest : List α} (h : streams[i]? = some (item :: rest)) :
    (item :: (streams.set i rest).flatten).Perm streams.flatten := by
  obtain ⟨before, after, rfl, -, hset⟩ := exists_split h
  rw [hset, List.flatten_append, List.flatten_append, List.flatten_cons, List.flatten_cons]
  exact List.perm_middle.symm

theorem streamHeads_append (index : Nat) (as bs : List (List α)) :
    streamHeads index (as ++ bs) = streamHeads index as ++ streamHeads (index + as.length) bs := by
  induction as generalizing index with
  | nil => rfl
  | cons a as ih =>
    have hindex : index + (a :: as).length = index + 1 + as.length := by
      rw [List.length_cons]
      omega
    rw [hindex, List.cons_append]
    cases a <;> simp [streamHeads, ih]

theorem streamHeads_cons (index : Nat) (stream : List α) (rest : List (List α)) :
    streamHeads index (stream :: rest) = streamHeads index [stream] ++ streamHeads (index + 1) rest :=
  streamHeads_append index [stream] rest

theorem mem_streamHeads {index : Nat} {head : StreamHead α} :
    head ∈ streamHeads index streams ↔
      ∃ i rest, streams[i]? = some (head.item :: rest) ∧ head.index = index + i := by
  induction streams generalizing index with
  | nil => simp [streamHeads]
  | cons stream streams ih =>
    have hsplit : head ∈ streamHeads index (stream :: streams) ↔
        (∃ rest, stream = head.item :: rest ∧ head.index = index) ∨
          head ∈ streamHeads (index + 1) streams := by
      obtain ⟨item, place⟩ := head
      cases stream <;> simp [streamHeads, eq_comm]
    rw [hsplit, ih]
    constructor
    · rintro (⟨rest, rfl, hindex⟩ | ⟨i, rest, hstream, hindex⟩)
      · exact ⟨0, rest, rfl, hindex⟩
      · exact ⟨i + 1, rest, hstream, by omega⟩
    · rintro ⟨i, rest, hstream, hindex⟩
      cases i with
      | zero => exact .inl ⟨rest, Option.some.inj hstream, hindex⟩
      | succ i => exact .inr ⟨i, rest, hstream, by omega⟩

/-- The heads of all streams are those of one of them and of the others. -/
theorem streamHeads_set {i : Nat} {stream : List α} (h : streams[i]? = some stream) :
    ∃ others, (streamHeads 0 streams).Perm (streamHeads i [stream] ++ others) ∧
      ∀ rest, (streamHeads 0 (streams.set i rest)).Perm (streamHeads i [rest] ++ others) := by
  obtain ⟨before, after, rfl, rfl, hset⟩ := exists_split h
  have hsplit (s : List α) : (streamHeads 0 (before ++ s :: after)).Perm (streamHeads before.length [s] ++
      (streamHeads 0 before ++ streamHeads (before.length + 1) after)) := by
    rw [streamHeads_append, Nat.zero_add, streamHeads_cons, ← List.append_assoc, ← List.append_assoc]
    exact List.Perm.append_right _ List.perm_append_comm
  exact ⟨_, hsplit stream, fun rest => hset rest ▸ hsplit rest⟩

/-! ## Least heads -/

theorem LeastHead.unique [Std.OrientedCmp cmp] {a b : StreamHead α} {as bs : List α}
    (h : LeastHead cmp streams a) (ha : streams[a.index]? = some (a.item :: as))
    (hb : streams[b.index]? = some (b.item :: bs)) (h' : LeastHead cmp streams b) : a = b := by
  obtain ⟨hab, hi⟩ := h _ _ _ hb
  obtain ⟨hba, hj⟩ := h' _ _ _ ha
  have heq : cmp a.item b.item = .eq := by
    have hswap : cmp b.item a.item = (cmp a.item b.item).swap := Std.OrientedCmp.eq_swap
    rw [hswap] at hba
    revert hab hba
    cases cmp a.item b.item <;> decide
  have hindex : a.index = b.index := Nat.le_antisymm (hi heq) (hj (Std.OrientedCmp.eq_symm heq))
  rw [hindex, hb] at ha
  obtain ⟨item, index⟩ := a
  obtain ⟨other, place⟩ := b
  obtain ⟨rfl, -⟩ := List.cons.inj (Option.some.inj ha)
  obtain rfl : index = place := hindex
  rfl

theorem isLE_total [Std.OrientedCmp cmp] (a b : α) : ((cmp a b).isLE || (cmp b a).isLE) = true := by
  have hswap : cmp b a = (cmp a b).swap := Std.OrientedCmp.eq_swap
  rw [hswap]
  cases cmp a b <;> decide

/-- In sorted streams nothing is before the least head, and nothing of an earlier stream is equal. -/
theorem LeastHead.of_mem [Std.TransCmp cmp] {head : StreamHead α} (h : LeastHead cmp streams head)
    {i : Nat} {stream : List α} (hi : streams[i]? = some stream)
    (hs : stream.Pairwise fun x y => (cmp x y).isLE) {y : α} (hy : y ∈ stream) :
    (cmp head.item y).isLE ∧ (cmp head.item y = .eq → head.index ≤ i) := by
  cases stream with
  | nil => cases hy
  | cons first rest =>
    obtain ⟨hfirst, hindex⟩ := h i first rest hi
    rcases List.mem_cons.mp hy with rfl | hy
    · exact ⟨hfirst, hindex⟩
    · have hle : (cmp first y).isLE := (List.pairwise_cons.mp hs).1 y hy
      refine ⟨Std.TransCmp.isLE_trans hfirst hle, fun heq => hindex ?_⟩
      have hback : (cmp first head.item).isLE :=
        Std.TransCmp.isLE_trans hle (by rw [Std.OrientedCmp.eq_symm heq]; rfl)
      have hswap : cmp first head.item = (cmp head.item first).swap := Std.OrientedCmp.eq_swap
      rw [hswap] at hback
      revert hfirst hback
      cases cmp head.item first <;> decide

/-! ## Stable sorts -/

section

variable {le : α → α → Bool} (htrans : ∀ a b c, le a b = true → le b c = true → le a c = true)
  (htotal : ∀ a b, (le a b || le b a) = true)

include htrans htotal

/-- An item is sorted in before the first that it is not after. -/
theorem mergeSort_cons_eq (x : α) (l : List α) : (x :: l).mergeSort le =
    (l.mergeSort le).takeWhile (fun y => !le x y) ++ x :: (l.mergeSort le).dropWhile fun y => !le x y := by
  obtain ⟨before, after, hsort, hrest, hbefore⟩ := List.mergeSort_cons htrans htotal x l
  have hsorted := List.pairwise_mergeSort htrans htotal (x :: l)
  rw [hsort] at hsorted
  have hafter : ∀ y ∈ after, le x y = true :=
    (List.pairwise_cons.mp (List.pairwise_append.mp hsorted).2.1).1
  rw [hsort, hrest, List.takeWhile_append_of_pos hbefore, List.dropWhile_append_of_pos hbefore]
  cases after with
  | nil => simp
  | cons y after => simp [hafter y List.mem_cons_self]

/-- An item that all items before it are after, and none after it is before, is sorted first. -/
theorem mergeSort_append_cons {x : α} {before after : List α} (hbefore : ∀ y ∈ before, ¬le y x)
    (hafter : ∀ y ∈ after, le x y) :
    (before ++ x :: after).mergeSort le = x :: (before ++ after).mergeSort le := by
  induction before with
  | nil =>
    have hsorted : ∀ y ∈ after.mergeSort le, le x y := fun y hy => hafter y (List.mem_mergeSort.mp hy)
    rw [List.nil_append, mergeSort_cons_eq htrans htotal, List.nil_append]
    cases hl : after.mergeSort le with
    | nil => rfl
    | cons y l =>
      rw [hl] at hsorted
      simp [hsorted y List.mem_cons_self]
  | cons y before ih =>
    obtain ⟨hy, hbefore⟩ := List.forall_mem_cons.mp hbefore
    rw [List.cons_append, List.cons_append, mergeSort_cons_eq htrans htotal,
      mergeSort_cons_eq htrans htotal, ih hbefore]
    simp [hy]

end

/-! ## What is taken -/

namespace Merges

/-- What is taken are all items. -/
theorem perm (h : Merges cmp streams taken) : (taken.map (·.item)).Perm streams.flatten := by
  induction h with
  | done h => rw [List.flatten_eq_nil_iff.mpr h, List.map_nil]
  | take hhead _ _ ih => exact (ih.cons _).trans (perm_flatten_set hhead)

/-- What is taken from a stream is the stream. -/
theorem ofStream (h : Merges cmp streams taken) (i : Nat) :
    (taken.filter (·.index = i)).map (·.item) = streams.getD i [] := by
  induction h with
  | @done streams h =>
    rw [List.getD_eq_getElem?_getD]
    cases hi : streams[i]? with
    | none => rfl
    | some stream => exact (h stream (List.mem_of_getElem? hi)).symm
  | @take streams head rest taken hhead _ _ ih =>
    have hlt : head.index < streams.length := (List.getElem?_eq_some_iff.mp hhead).1
    rw [List.getD_eq_getElem?_getD, List.getElem?_set] at ih
    rw [List.getD_eq_getElem?_getD]
    by_cases hi : head.index = i
    · subst hi
      rw [if_pos rfl, if_pos hlt] at ih
      rw [hhead, List.filter_cons_of_pos (by simp), List.map_cons, ih]
      rfl
    · rw [if_neg hi] at ih
      rw [List.filter_cons_of_neg (by simpa using hi), ih]

theorem length_eq (h : Merges cmp streams taken) : taken.length = streams.flatten.length := by
  rw [← h.perm.length_eq, List.length_map]

variable [Std.TransCmp cmp]

/-- What is taken is determined by the streams. -/
theorem unique (h : Merges cmp streams taken) {other : List (StreamHead α)}
    (hother : Merges cmp streams other) : other = taken := by
  induction h generalizing other with
  | done h =>
    cases hother with
    | done _ => rfl
    | take hhead _ _ => cases h _ (List.mem_of_getElem? hhead)
  | take hhead hleast _ ih =>
    cases hother with
    | done h => cases h _ (List.mem_of_getElem? hhead)
    | take hhead' hleast' hrest' =>
      obtain rfl := hleast.unique hhead hhead' hleast'
      obtain rfl := (List.cons.inj (Option.some.inj (hhead.symm.trans hhead'))).2
      rw [ih hrest']

/-- Sorted streams are taken from in the order of a stable sort of all their items. -/
theorem eq_mergeSort (h : Merges cmp streams taken)
    (hs : ∀ stream ∈ streams, stream.Pairwise fun x y => (cmp x y).isLE) :
    taken.map (·.item) = streams.flatten.mergeSort fun x y => (cmp x y).isLE := by
  induction h with
  | done h => rw [List.flatten_eq_nil_iff.mpr h, List.map_nil, List.mergeSort_nil]
  | @take streams head rest taken hhead hleast _ ih =>
    obtain ⟨before, after, rfl, hlen, hset⟩ := exists_split hhead
    have hrest : (head.item :: rest).Pairwise fun x y => (cmp x y).isLE :=
      hs _ (List.mem_of_getElem? hhead)
    have hsorted : ∀ stream ∈ (before ++ (head.item :: rest) :: after).set head.index rest,
        stream.Pairwise fun x y => (cmp x y).isLE := by
      intro stream hstream
      rcases List.mem_or_eq_of_mem_set hstream with hstream | rfl
      · exact hs stream hstream
      · exact (List.pairwise_cons.mp hrest).2
    rw [List.map_cons, ih hsorted, hset]
    simp only [List.flatten_append, List.flatten_cons, List.cons_append]
    refine (mergeSort_append_cons (fun _ _ _ => Std.TransCmp.isLE_trans) isLE_total (fun y hy => ?_)
      fun y hy => ?_).symm
    · -- a stream before that of the head has nothing as little
      obtain ⟨stream, hstream, hy⟩ := List.mem_flatten.mp hy
      obtain ⟨i, hi⟩ := List.mem_iff_getElem?.mp hstream
      have hilt : i < before.length := (List.getElem?_eq_some_iff.mp hi).1
      have hat : (before ++ (head.item :: rest) :: after)[i]? = some stream := by
        rw [List.getElem?_append_left hilt, hi]
      obtain ⟨hle, heq⟩ := hleast.of_mem hat (hs stream (List.mem_of_getElem? hat)) hy
      have hswap : cmp y head.item = (cmp head.item y).swap := Std.OrientedCmp.eq_swap
      rw [hswap]
      have hne : cmp head.item y ≠ .eq := fun h => by
        have := heq h
        omega
      revert hle hne
      cases cmp head.item y <;> decide
    · rcases List.mem_append.mp hy with hy | hy
      · exact (List.pairwise_cons.mp hrest).1 y hy
      · obtain ⟨stream, hstream, hy⟩ := List.mem_flatten.mp hy
        have hmem : stream ∈ before ++ (head.item :: rest) :: after :=
          List.mem_append_right _ (List.mem_cons_of_mem _ hstream)
        obtain ⟨i, hi⟩ := List.mem_iff_getElem?.mp hmem
        exact (hleast.of_mem hi (hs stream hmem) hy).1

end Merges

/-! ## Merges under way -/

instance [Std.TransCmp cmp] : Std.TransCmp (StreamHead.order cmp) :=
  have : Std.TransCmp fun a b : StreamHead α => cmp a.item b.item :=
    { eq_swap := Std.OrientedCmp.eq_swap, isLE_trans := Std.TransCmp.isLE_trans }
  inferInstanceAs (Std.TransCmp
    (compareLex (fun a b : StreamHead α => cmp a.item b.item) (compareOn StreamHead.index)))

/-- A head that is not after another is not greater, and not of a later stream if it is equal. -/
theorem StreamHead.of_isLE_order {a b : StreamHead α} (h : (order cmp a b).isLE) :
    (cmp a.item b.item).isLE ∧ (cmp a.item b.item = .eq → a.index ≤ b.index) := by
  unfold order at h
  revert h
  cases cmp a.item b.item
  · simp
  · exact fun h => ⟨rfl, fun _ => Nat.isLE_compare.mp h⟩
  · simp

namespace StreamMerge

variable {merge : StreamMerge α}

/-- The heads of the streams wait in a heap, and what follows them is kept. -/
structure Waits (cmp : α → α → Ordering) (merge : StreamMerge α) (streams : List (List α)) : Prop where
  ordered : BinaryHeap.Ordered (StreamHead.order cmp) merge.heads
  heads_perm : merge.heads.toList.Perm (streamHeads 0 streams)
  streams_eq : merge.streams = streams.map List.tail

theorem exhausted_of_streamHeads (h : streamHeads 0 streams = []) : ∀ stream ∈ streams, stream = [] := by
  intro stream hstream
  obtain ⟨i, hi⟩ := List.mem_iff_getElem?.mp hstream
  cases stream with
  | nil => rfl
  | cons item rest =>
    have hmem : (⟨item, i⟩ : StreamHead α) ∈ streamHeads 0 streams :=
      mem_streamHeads.mpr ⟨i, rest, hi, (Nat.zero_add i).symm⟩
    rw [h] at hmem
    cases hmem

/-- A stream of one item is exhausted when that is taken. -/
theorem map_tail_set_nil {i : Nat} {item : α} (h : streams[i]? = some [item]) :
    (streams.set i []).map List.tail = streams.map List.tail := by
  have htail : (streams.map List.tail)[i]? = some [] := by
    rw [List.getElem?_map, h]
    rfl
  obtain ⟨hlt, hget⟩ := List.getElem?_eq_some_iff.mp htail
  have hself := List.set_getElem_self hlt
  rw [hget] at hself
  rw [List.map_set]
  exact hself

theorem take_of_none (h : merge.next? cmp = none) (count : Nat) : merge.take cmp count = [] := by
  cases count with
  | zero => rfl
  | succ count =>
    unfold take
    rw [h]

theorem waits_ofStreams (cmp : α → α → Ordering) [Std.TransCmp cmp] (streams : List (List α)) :
    (ofStreams cmp streams).Waits cmp streams where
  ordered := BinaryHeap.ordered_ofVector _
  heads_perm := (BinaryHeap.perm_ofVector _).toList
  streams_eq := rfl

variable [Std.TransCmp cmp]

/-- What is first in the heap is the least head. -/
theorem leastHead_first {n : Nat} {heads : Vector (StreamHead α) (n + 1)}
    (hordered : BinaryHeap.Ordered (StreamHead.order cmp) heads)
    (hperm : heads.toList.Perm (streamHeads 0 streams)) :
    LeastHead cmp streams (heads.get BinaryHeap.first) := by
  intro i other rest hi
  have hmem : (⟨other, i⟩ : StreamHead α) ∈ streamHeads 0 streams :=
    mem_streamHeads.mpr ⟨i, rest, hi, (Nat.zero_add i).symm⟩
  obtain ⟨j, hj, hother⟩ := Vector.mem_iff_getElem.mp (Vector.mem_toList_iff.mp (hperm.mem_iff.mpr hmem))
  have hle := hordered.isLE_first ⟨j, hj⟩
  rw [show heads.get ⟨j, hj⟩ = ⟨other, i⟩ from hother] at hle
  exact StreamHead.of_isLE_order hle

/-- Either all streams are exhausted, or the least head is taken, and the others wait with what follows
it. -/
theorem Waits.next (h : merge.Waits cmp streams) :
    (merge.next? cmp = none ∧ ∀ stream ∈ streams, stream = []) ∨
      ∃ head rest next, merge.next? cmp = some (head, next) ∧
        streams[head.index]? = some (head.item :: rest) ∧ LeastHead cmp streams head ∧
        next.Waits cmp (streams.set head.index rest) := by
  obtain ⟨size, heads, tails⟩ := merge
  obtain ⟨hordered, hperm, rfl⟩ := h
  cases size with
  | zero =>
    refine .inl ⟨rfl, exhausted_of_streamHeads (List.Perm.nil_eq ?_).symm⟩
    rwa [Vector.toList_eq_nil_iff.mpr rfl] at hperm
  | succ n =>
    dsimp only at hordered hperm
    have hmem : heads.get BinaryHeap.first ∈ streamHeads 0 streams :=
      hperm.mem_iff.mp (Vector.mem_toList_iff.mpr (Vector.getElem_mem BinaryHeap.first.isLt))
    obtain ⟨i, rest, hi, hindex⟩ := mem_streamHeads.mp hmem
    rw [Nat.zero_add] at hindex
    subst hindex
    obtain ⟨others, hothers, hset⟩ := streamHeads_set hi
    -- what is left in the heap are the other heads
    have hleft : (BinaryHeap.pop (StreamHead.order cmp) heads).toList.Perm others :=
      (((BinaryHeap.perm_pop heads).trans hperm).trans hothers).cons_inv
    have htail : (streams.map List.tail)[(heads.get BinaryHeap.first).index]? = some rest := by
      rw [List.getElem?_map, hi]
      rfl
    have hleast := leastHead_first hordered hperm
    unfold next?
    dsimp only
    rw [htail]
    cases rest with
    | nil =>
      exact .inr ⟨_, [], _, rfl, hi, hleast, hordered.pop, hleft.trans (hset []).symm,
        (map_tail_set_nil hi).symm⟩
    | cons item rest =>
      refine .inr ⟨_, item :: rest, _, rfl, hi, hleast, hordered.pop.push _, ?_, ?_⟩
      · exact ((BinaryHeap.perm_push _ _).trans (hleft.cons _)).trans (hset (item :: rest)).symm
      · rw [List.map_set]
        rfl

/-- Taking from a merge is taking least heads from its streams. -/
theorem Waits.take (h : merge.Waits cmp streams) : ∃ taken, Merges cmp streams taken ∧
    ∀ count, merge.take cmp count = (taken.map (·.item)).take count := by
  induction hn : streams.flatten.length using Nat.strongRecOn generalizing merge streams with
  | _ n ih =>
    obtain ⟨hnone, hall⟩ | ⟨head, rest, next, hnext, hi, hleast, hwaits⟩ := h.next
    · exact ⟨[], .done hall, fun count => (take_of_none hnone count).trans List.take_nil.symm⟩
    · -- what is left is shorter
      have hlen := (perm_flatten_set hi).length_eq
      rw [List.length_cons] at hlen
      obtain ⟨taken, hmerges, htake⟩ := ih _ (by omega) hwaits rfl
      refine ⟨head :: taken, .take hi hleast hmerges, fun count => ?_⟩
      cases count with
      | zero => rfl
      | succ count =>
        unfold StreamMerge.take
        rw [hnext, List.map_cons, List.take_succ_cons, ← htake]

end StreamMerge

/-! ## All items of the streams -/

section

/-- All that least heads are taken from is merged. -/
theorem exists_merges (cmp : α → α → Ordering) [Std.TransCmp cmp] (streams : List (List α)) :
    ∃ taken, Merges cmp streams taken ∧ mergeStreams cmp streams = taken.map (·.item) ∧
      ∀ count, (StreamMerge.ofStreams cmp streams).take cmp count = (taken.map (·.item)).take count := by
  obtain ⟨taken, hmerges, htake⟩ := (StreamMerge.waits_ofStreams cmp streams).take
  refine ⟨taken, hmerges, ?_, htake⟩
  rw [mergeStreams, htake, List.take_of_length_le]
  rw [List.length_map, hmerges.length_eq]

variable [Std.TransCmp cmp]

/-- Merged streams are their items in some order. -/
theorem perm_mergeStreams : (mergeStreams cmp streams).Perm streams.flatten := by
  obtain ⟨taken, hmerges, htaken, -⟩ := exists_merges cmp streams
  exact htaken ▸ hmerges.perm

/-- Sorted streams are merged into what a stable sort makes of all their items. -/
theorem mergeStreams_eq_mergeSort (hs : ∀ stream ∈ streams, stream.Pairwise fun x y => (cmp x y).isLE) :
    mergeStreams cmp streams = streams.flatten.mergeSort fun x y => (cmp x y).isLE := by
  obtain ⟨taken, hmerges, htaken, -⟩ := exists_merges cmp streams
  rw [htaken, hmerges.eq_mergeSort hs]

/-- Sorted streams are merged into a sorted list. -/
theorem pairwise_mergeStreams (h : ∀ stream ∈ streams, stream.Pairwise fun x y => (cmp x y).isLE) :
    (mergeStreams cmp streams).Pairwise fun x y => (cmp x y).isLE := by
  rw [mergeStreams_eq_mergeSort h]
  exact List.pairwise_mergeSort (fun _ _ _ => Std.TransCmp.isLE_trans) isLE_total _

end

/-- The heap gives, one after another, the least of all heads, of equal ones that of the earliest
stream.  What comes from a stream is that stream in its order, and what comes from sorted streams is the
stable sort of all their items. -/
theorem mergeStreams_stable (cmp : α → α → Ordering) [Std.TransCmp cmp] (streams : List (List α)) :
    ∃ taken, Merges cmp streams taken ∧ (∀ other, Merges cmp streams other → other = taken) ∧
      mergeStreams cmp streams = taken.map (·.item) ∧
      (∀ count, (StreamMerge.ofStreams cmp streams).take cmp count =
        (taken.map (·.item)).take count) ∧
      (∀ i, (taken.filter (·.index = i)).map (·.item) = streams.getD i []) ∧
      ((∀ stream ∈ streams, stream.Pairwise fun x y => (cmp x y).isLE) →
        mergeStreams cmp streams = streams.flatten.mergeSort fun x y => (cmp x y).isLE) := by
  obtain ⟨taken, hmerges, htaken, htake⟩ := exists_merges cmp streams
  exact ⟨taken, hmerges, fun _ => hmerges.unique, htaken, htake, hmerges.ofStream,
    mergeStreams_eq_mergeSort⟩

/-- Pairs with equal first parts come in the order of their streams. -/
theorem mergeStreams_stable_pairs :
    mergeStreams (compareOn Prod.fst) [[(1, 'a'), (3, 'a')], [], [(1, 'c'), (2, 'c')]] =
      [(1, 'a'), (3, 'a'), (1, 'c'), (2, 'c')].mergeSort (fun x y => (compareOn Prod.fst x y).isLE) ∧
    mergeStreams (compareOn Prod.fst) [[(1, 'a'), (3, 'a')], [], [(1, 'c'), (2, 'c')]] =
      [(1, 'a'), (1, 'c'), (2, 'c'), (3, 'a')] := by
  obtain ⟨-, -, -, -, -, -, hsorted⟩ := mergeStreams_stable (compareOn (Prod.fst : Nat × Char → Nat))
    [[(1, 'a'), (3, 'a')], [], [(1, 'c'), (2, 'c')]]
  exact ⟨hsorted (by decide), by decide +kernel⟩

end RowGraph
