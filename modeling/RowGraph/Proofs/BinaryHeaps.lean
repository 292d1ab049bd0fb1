import Mathlib.Order.Fin.Basic
import Mathlib.Tactic.Common
import RowGraph.Answer.BinaryHeap

/-!
# Order in binary heaps

Sifting changes what a heap holds only in order.  While an item sinks all is in order but for what is
below its place, and what is above it is not after that; while one rises all is in order but for its
place, and what is above it is not after what is below it.  Each step keeps this and the last one
puts the item where it belongs.

* `ordered_ofVector`, `Ordered.pop`, `Ordered.push`: heaps are in order and stay so.
* `Ordered.isLE_first`: the first item is not after any.
* `perm_ofVector`, `perm_pop`, `perm_push`: nothing is lost.
-/

namespace RowGraph

namespace BinaryHeap

variable {β : Type} {n : Nat} {cmp : β → β → Ordering} {heap : Vector β n} {k : Nat}
  {pos : Fin n}

/-! ## Places -/

theorem get_swapAt_left (heap : Vector β n) (i j : Fin n) : (swapAt heap i j).get i = heap.get j :=
  Vector.getElem_swap_left i.isLt j.isLt

theorem get_swapAt_right (heap : Vector β n) (i j : Fin n) : (swapAt heap i j).get j = heap.get i :=
  Vector.getElem_swap_right i.isLt j.isLt

theorem get_swapAt_of_ne {i j x : Fin n} (hi : x ≠ i) (hj : x ≠ j) :
    (swapAt heap i j).get x = heap.get x :=
  Vector.getElem_swap_of_ne (Fin.val_ne_of_ne hi) (Fin.val_ne_of_ne hj)

theorem perm_swapAt (heap : Vector β n) (i j : Fin n) : (swapAt heap i j).Perm heap :=
  Vector.swap_perm i.isLt j.isLt

/-! ## What a heap holds -/

theorem perm_siftDown (heap : Vector β n) (pos : Fin n) : (siftDown cmp heap pos).Perm heap := by
  induction heap, pos using siftDown.induct cmp with
  | case1 heap pos hchild => rw [siftDown, hchild]
  | case2 heap pos child hchild hlt ih =>
    rw [siftDown, hchild]
    dsimp only
    rw [if_pos hlt]
    exact ih.trans (perm_swapAt _ _ _)
  | case3 heap pos child hchild hlt =>
    rw [siftDown, hchild]
    dsimp only
    rw [if_neg hlt]

theorem perm_siftUp (heap : Vector β n) (pos : Fin n) : (siftUp cmp heap pos).Perm heap := by
  induction heap, pos using siftUp.induct cmp with
  | case1 heap pos hpos hlt ih =>
    rw [siftUp, if_pos hpos, if_pos hlt]
    exact ih.trans (perm_swapAt _ _ _)
  | case2 heap pos hpos hlt => rw [siftUp, if_pos hpos, if_neg hlt]
  | case3 heap pos hpos => rw [siftUp, if_neg hpos]

theorem perm_heapify (heap : Vector β n) (hk : k ≤ n) : (heapify cmp heap k hk).Perm heap := by
  induction k generalizing heap with
  | zero => exact .refl heap
  | succ k ih => exact (ih _ _).trans (perm_siftDown _ _)

/-- Making a heap keeps the items. -/
theorem perm_ofVector (items : Vector β n) : (ofVector cmp items).Perm items :=
  perm_heapify _ _

/-- What is left, with the first item, is all there was. -/
theorem perm_pop (heap : Vector β (n + 1)) :
    (heap.get first :: (pop cmp heap).toList).Perm heap.toList := by
  have hswap := (perm_swapAt heap first (Fin.last n)).toList
  have hlast : (swapAt heap first (Fin.last n)).back = heap.get first := by
    rw [Vector.back_eq_getElem]
    exact get_swapAt_right heap first (Fin.last n)
  rw [← Vector.push_pop_back (swapAt heap first (Fin.last n)), Vector.toList_push, hlast] at hswap
  refine .trans (.cons _ ?_) ((List.perm_append_singleton _ _).symm.trans hswap)
  unfold pop
  dsimp only
  split
  · exact (perm_siftDown _ _).toList
  · exact .refl _

/-- An item is added to those there were. -/
theorem perm_push (heap : Vector β n) (item : β) :
    (push cmp heap item).toList.Perm (item :: heap.toList) := by
  refine (perm_siftUp _ _).toList.trans ?_
  rw [Vector.toList_push]
  exact List.perm_append_singleton item heap.toList

/-! ## Order -/

/-- Is place `c` directly below place `p`? -/
def Below (p c : Nat) : Prop := c = 2 * p + 1 ∨ c = 2 * p + 2

/-- Nothing from place `k` on is after what is directly below it. -/
def OrderedFrom (cmp : β → β → Ordering) (heap : Vector β n) (k : Nat) : Prop :=
  ∀ p c : Fin n, k ≤ p.val → Below p c → (cmp (heap.get p) (heap.get c)).isLE

/-- Nothing is after what is directly below it. -/
abbrev Ordered (cmp : β → β → Ordering) (heap : Vector β n) : Prop := OrderedFrom cmp heap 0

/-- From place `k` on all is in order but for what is below place `pos`. -/
structure Sinking (cmp : β → β → Ordering) (heap : Vector β n) (k : Nat) (pos : Fin n) : Prop where
  apart : ∀ p c : Fin n, k ≤ p.val → p ≠ pos → Below p c → (cmp (heap.get p) (heap.get c)).isLE
  across : ∀ p c : Fin n, k ≤ p.val → Below p pos → Below pos c → (cmp (heap.get p) (heap.get c)).isLE

/-- All is in order but for what is above place `pos`. -/
structure Rising (cmp : β → β → Ordering) (heap : Vector β n) (pos : Fin n) : Prop where
  apart : ∀ p c : Fin n, c ≠ pos → Below p c → (cmp (heap.get p) (heap.get c)).isLE
  across : ∀ p c : Fin n, Below p pos → Below pos c → (cmp (heap.get p) (heap.get c)).isLE

theorem Below.lt {p c : Nat} (h : Below p c) : p < c := by
  unfold Below at h
  omega

/-- There is one place above each. -/
theorem Below.unique {p q c : Nat} (hp : Below p c) (hq : Below q c) : p = q := by
  unfold Below at hp hq
  omega

theorem below_parent (h : 0 < k) : Below ((k - 1) / 2) k := by
  unfold Below
  omega

theorem not_below_of_firstChild (h : firstChild? cmp heap pos = none) (c : Fin n) : ¬Below pos c := by
  unfold firstChild? at h
  unfold Below
  grind

theorem below_firstChild (h : firstChild? cmp heap pos = some child) : Below pos child := by
  unfold firstChild? at h
  unfold Below
  grind

theorem isLE_of_isLT {a b : β} (h : (cmp a b).isLT) : (cmp a b).isLE := by
  revert h
  cases cmp a b <;> decide

/-- An item that is not after what comes first below it is where it belongs. -/
theorem Sinking.orderedFrom (hs : Sinking cmp heap k pos)
    (hbelow : ∀ c : Fin n, Below pos c → (cmp (heap.get pos) (heap.get c)).isLE) :
    OrderedFrom cmp heap k := by
  intro p c hp hc
  by_cases hpos : p = pos
  · subst hpos
    exact hbelow c hc
  · exact hs.apart p c hp hpos hc

/-- An item that is not before what is above it is where it belongs. -/
theorem Rising.ordered (hr : Rising cmp heap pos)
    (habove : ∀ p : Fin n, Below p pos → (cmp (heap.get p) (heap.get pos)).isLE) : Ordered cmp heap := by
  intro p c _ hc
  by_cases hpos : c = pos
  · subst hpos
    exact habove p hc
  · exact hr.apart p c hpos hc

variable [Std.TransCmp cmp]

theorem isLE_of_not_isLT {a b : β} (h : ¬(cmp a b).isLT) : (cmp b a).isLE := by
  have hswap : cmp b a = (cmp a b).swap := Std.OrientedCmp.eq_swap
  rw [hswap]
  revert h
  cases cmp a b <;> decide

/-- No place below is before the first. -/
theorem isLE_firstChild (h : firstChild? cmp heap pos = some child) {c : Fin n} (hc : Below pos c) :
    (cmp (heap.get child) (heap.get c)).isLE := by
  have hself : (cmp (heap.get c) (heap.get c)).isLE := Std.ReflCmp.isLE_rfl
  obtain ⟨c, hlt⟩ := c
  unfold firstChild? at h
  dsimp only at h
  split at h
  · split at h
    · split at h
      · rename_i hright hbefore
        obtain rfl := Option.some.inj h
        rcases hc with rfl | rfl
        · exact isLE_of_isLT hbefore
        · exact hself
      · rename_i hright hbefore
        obtain rfl := Option.some.inj h
        rcases hc with rfl | rfl
        · exact hself
        · exact isLE_of_not_isLT hbefore
    · obtain rfl := Option.some.inj h
      rcases hc with rfl | rfl
      · exact hself
      · contradiction
  · cases h

/-! ### Sinking -/

theorem Sinking.swap (hs : Sinking cmp heap k pos) (hk : k ≤ pos.val)
    (hchild : firstChild? cmp heap pos = some child) (hlt : (cmp (heap.get child) (heap.get pos)).isLT) :
    Sinking cmp (swapAt heap pos child) k child := by
  have hbelow := below_firstChild hchild
  have hne : child ≠ pos := Fin.ne_of_gt hbelow.lt
  constructor
  · intro p c hp hpchild hc
    have hcne : c ≠ p := Fin.ne_of_gt hc.lt
    by_cases hppos : p = pos
    · subst hppos
      rw [get_swapAt_left]
      by_cases hcchild : c = child
      · rw [hcchild, get_swapAt_right]
        exact isLE_of_isLT hlt
      · rw [get_swapAt_of_ne hcne hcchild]
        exact isLE_firstChild hchild hc
    · rw [get_swapAt_of_ne hppos hpchild]
      by_cases hcpos : c = pos
      · subst hcpos
        rw [get_swapAt_left]
        exact hs.across p child hp hc hbelow
      · have hcchild : c ≠ child := by
          rintro rfl
          exact hppos (Fin.ext (hc.unique hbelow))
        rw [get_swapAt_of_ne hcpos hcchild]
        exact hs.apart p c hp hppos hc
  · intro p c hp hpchild hc
    obtain rfl : p = pos := Fin.ext (hpchild.unique hbelow)
    rw [get_swapAt_left, get_swapAt_of_ne (Fin.ne_of_gt (hbelow.lt.trans hc.lt)) (Fin.ne_of_gt hc.lt)]
    exact hs.apart child c (hk.trans (Nat.le_of_lt hbelow.lt)) hne hc

theorem Sinking.siftDown (hs : Sinking cmp heap k pos) (hk : k ≤ pos.val) :
    OrderedFrom cmp (siftDown cmp heap pos) k := by
  induction heap, pos using siftDown.induct cmp with
  | case1 heap pos hchild =>
    rw [BinaryHeap.siftDown, hchild]
    exact hs.orderedFrom fun c hc => absurd hc (not_below_of_firstChild hchild c)
  | case2 heap pos child hchild hlt ih =>
    rw [BinaryHeap.siftDown, hchild]
    dsimp only
    rw [if_pos hlt]
    exact ih (hs.swap hk hchild hlt) (hk.trans (Nat.le_of_lt (below_firstChild hchild).lt))
  | case3 heap pos child hchild hlt =>
    rw [BinaryHeap.siftDown, hchild]
    dsimp only
    rw [if_neg hlt]
    exact hs.orderedFrom fun c hc =>
      Std.TransCmp.isLE_trans (isLE_of_not_isLT hlt) (isLE_firstChild hchild hc)

theorem OrderedFrom.heapify (hk : k ≤ n) (h : OrderedFrom cmp heap k) :
    Ordered cmp (heapify cmp heap k hk) := by
  induction k generalizing heap with
  | zero => exact h
  | succ k ih =>
    have hs : Sinking cmp heap k ⟨k, hk⟩ := by
      refine ⟨fun p c hp hne hc => h p c (by grind) hc, fun p c hp hpos _ => ?_⟩
      exact absurd hpos.lt (Nat.not_lt_of_le hp)
    exact ih (Nat.le_of_lt hk) (hs.siftDown (Nat.le_refl k))

/-- Items are put in order. -/
theorem ordered_ofVector (items : Vector β n) : Ordered cmp (ofVector cmp items) := by
  refine OrderedFrom.heapify _ fun p c hp hc => ?_
  have : c.val < n := c.isLt
  unfold Below at hc
  omega

/-- What is left after the first is taken is in order. -/
theorem Ordered.pop {heap : Vector β (n + 1)} (h : Ordered cmp heap) : Ordered cmp (pop cmp heap) := by
  unfold BinaryHeap.pop
  dsimp only
  split
  · rename_i hn
    refine Sinking.siftDown ⟨fun p c _ hne hc => ?_, fun p c _ hpos _ => ?_⟩ (Nat.zero_le _)
    case refine_2 => exact absurd hpos.lt (Nat.not_lt_zero _)
    have hrest (x : Fin n) (hx : x.val ≠ 0) :
        (swapAt heap first (Fin.last n)).pop.get x = heap.get x.castSucc :=
      (Vector.getElem_pop x.isLt).trans (Vector.getElem_swap_of_ne hx (Nat.ne_of_lt x.isLt))
    have hp : p.val ≠ 0 := fun hp => hne (Fin.ext hp)
    rw [hrest p hp, hrest c (Nat.ne_of_gt (Nat.lt_of_le_of_lt (Nat.zero_le _) hc.lt))]
    exact h p.castSucc c.castSucc (Nat.zero_le _) hc
  · intro p
    exact absurd p.pos ‹_›

/-- The first item is not after any. -/
theorem Ordered.isLE_first {heap : Vector β (n + 1)} (h : Ordered cmp heap) (i : Fin (n + 1)) :
    (cmp (heap.get first) (heap.get i)).isLE := by
  obtain ⟨i, hi⟩ := i
  induction i using Nat.strongRecOn with
  | _ i ih =>
    rcases Nat.eq_zero_or_pos i with rfl | hpos
    · exact Std.ReflCmp.isLE_rfl
    · have hparent := below_parent hpos
      exact Std.TransCmp.isLE_trans (ih _ hparent.lt (hparent.lt.trans hi))
        (h ⟨_, hparent.lt.trans hi⟩ ⟨i, hi⟩ (Nat.zero_le _) hparent)

/-! ### Rising -/

theorem Rising.swap {parent : Fin n} (hr : Rising cmp heap pos) (hparent : Below parent pos)
    (hlt : (cmp (heap.get pos) (heap.get parent)).isLT) : Rising cmp (swapAt heap pos parent) parent := by
  have hne : parent ≠ pos := Fin.ne_of_lt hparent.lt
  constructor
  · intro p c hcparent hc
    have hpc : p ≠ c := Fin.ne_of_lt hc.lt
    by_cases hppos : p = pos
    · subst hppos
      rw [get_swapAt_left, get_swapAt_of_ne hpc.symm hcparent]
      exact hr.across parent c hparent hc
    · by_cases hpparent : p = parent
      · subst hpparent
        rw [get_swapAt_right]
        by_cases hcpos : c = pos
        · rw [hcpos, get_swapAt_left]
          exact isLE_of_isLT hlt
        · rw [get_swapAt_of_ne hcpos hcparent]
          exact Std.TransCmp.isLE_trans (isLE_of_isLT hlt) (hr.apart p c hcpos hc)
      · have hcpos : c ≠ pos := by
          rintro rfl
          exact hpparent (Fin.ext (hc.unique hparent))
        rw [get_swapAt_of_ne hppos hpparent, get_swapAt_of_ne hcpos hcparent]
        exact hr.apart p c hcpos hc
  · intro p c hp hc
    have hpparent : p ≠ parent := Fin.ne_of_lt hp.lt
    have hppos : p ≠ pos := Fin.ne_of_lt (hp.lt.trans hparent.lt)
    have hp' := hr.apart p parent hne hp
    rw [get_swapAt_of_ne hppos hpparent]
    by_cases hcpos : c = pos
    · rw [hcpos, get_swapAt_left]
      exact hp'
    · rw [get_swapAt_of_ne hcpos (Fin.ne_of_gt hc.lt)]
      exact Std.TransCmp.isLE_trans hp' (hr.apart parent c hcpos hc)

theorem Rising.siftUp (hr : Rising cmp heap pos) : Ordered cmp (siftUp cmp heap pos) := by
  induction heap, pos using siftUp.induct cmp with
  | case1 heap pos hpos hlt ih =>
    rw [BinaryHeap.siftUp, if_pos hpos, if_pos hlt]
    exact ih (hr.swap (below_parent hpos) hlt)
  | case2 heap pos hpos hlt =>
    rw [BinaryHeap.siftUp, if_pos hpos, if_neg hlt]
    refine hr.ordered fun p hp => ?_
    obtain rfl : p = parent pos := Fin.ext (hp.unique (below_parent hpos))
    exact isLE_of_not_isLT hlt
  | case3 heap pos hpos =>
    rw [BinaryHeap.siftUp, if_neg hpos]
    exact hr.ordered fun p hp => absurd (Nat.lt_of_le_of_lt (Nat.zero_le _) hp.lt) hpos

/-- What there is with one item more is in order. -/
theorem Ordered.push (h : Ordered cmp heap) (item : β) : Ordered cmp (push cmp heap item) := by
  refine Rising.siftUp ⟨fun p c hne hc => ?_, fun p c _ hc => ?_⟩
  · have hlt : c.val < n := Fin.val_lt_last hne
    have hplt : p.val < n := hc.lt.trans hlt
    have hpush (x : Fin (n + 1)) (hx : x.val < n) : (heap.push item).get x = heap.get ⟨x, hx⟩ :=
      Vector.getElem_push_lt hx
    rw [hpush p hplt, hpush c hlt]
    exact h ⟨p, hplt⟩ ⟨c, hlt⟩ (Nat.zero_le _) hc
  · have := hc.lt
    have hlast : (Fin.last n).val = n := rfl
    omega

end BinaryHeap

end RowGraph
