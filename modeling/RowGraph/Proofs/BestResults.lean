import Mathlib.Data.List.Forall2
import Mathlib.Data.List.Perm.Subperm
import RowGraph.Proofs.KeyOrder
import RowGraph.Plan.ResultOrder
import RowGraph.Plan.ReadLimit

/-!
# The best results

Results are compared by the bytes of their values, so the order of results is a total preorder and
sorting sorts.  What is read of several sources may be cut short, if a source that is cut short is
sorted and has yielded as many as are wanted: sorted and cut, the parts give the best of everything
(`best_of_parts`).  What several answers, each of them sorted and cut, come to when they are merged and
cut again is the best part of all that they were taken from (`bestPart_merged`).
-/

namespace RowGraph

/-! ## The order of results -/

theorem Key.cmpAbsentLast_eq (x y : Option Value) :
    Value.cmpAbsentLast x y = compare (Key.encode x .asc) (Key.encode y .asc) := by
  by_cases h : x = y
  · subst h
    exact (Key.cmpAbsentLast_self x).trans Std.ReflCmp.compare_self.symm
  · simpa [SortOrder.apply] using (Key.compare_encode .asc h [] []).symm

namespace ResultOrder

variable {base : VertexId} {a b : Relation}

/-- The bytes by which a relation is sorted. -/
def sortBytes (keys : List TypeId) (base : VertexId) (r : Relation) : List Bytes :=
  keys.map fun key => Key.encode (r.valueOf key base) .asc

theorem cmpAscending_eq (keys : List TypeId) :
    cmpAscending base a b keys = compare (sortBytes keys base a) (sortBytes keys base b) := by
  induction keys with
  | nil => rfl
  | cons key keys ih =>
    unfold cmpAscending sortBytes
    rw [ih, List.map_cons, List.map_cons, List.compare_cons_cons, Key.cmpAbsentLast_eq]
    rfl

theorem cmp_asc {o : ResultOrder} (h : o.direction.getD .asc = .asc) :
    o.cmp base a b = compare (sortBytes o.keys base a) (sortBytes o.keys base b) := by
  unfold cmp
  rw [h, cmpAscending_eq]
  rfl

theorem cmp_desc {o : ResultOrder} (h : o.direction.getD .asc = .desc) :
    o.cmp base a b = compare (sortBytes o.keys base b) (sortBytes o.keys base a) := by
  unfold cmp
  rw [h, cmpAscending_eq]
  exact Std.OrientedCmp.eq_swap.symm

instance (o : ResultOrder) (base : VertexId) : Std.TransCmp (o.cmp base) where
  eq_swap := by
    intro a b
    cases h : o.direction.getD .asc with
    | asc =>
      rw [cmp_asc h, cmp_asc h]
      exact Std.OrientedCmp.eq_swap
    | desc =>
      rw [cmp_desc h, cmp_desc h]
      exact Std.OrientedCmp.eq_swap
  isLE_trans := by
    intro a b c
    cases h : o.direction.getD .asc with
    | asc =>
      rw [cmp_asc h, cmp_asc h, cmp_asc h]
      exact Std.TransCmp.isLE_trans
    | desc =>
      rw [cmp_desc h, cmp_desc h, cmp_desc h]
      exact fun hab hbc => Std.TransCmp.isLE_trans hbc hab

theorem isLE_iff_ne_gt {o : Ordering} : o.isLE = true ↔ o ≠ .gt := by
  cases o <;> simp

/-- Sorting sorts. -/
theorem pairwise_mergeSort {α : Type} {cmp : α → α → Ordering} [Std.TransCmp cmp] (l : List α) :
    (l.mergeSort fun a b => (cmp a b).isLE).Pairwise fun a b => cmp a b ≠ .gt := by
  refine (List.pairwise_mergeSort ?_ ?_ l).imp fun {a b} h => isLE_iff_ne_gt.mp h
  · exact fun a b c hab hbc => Std.TransCmp.isLE_trans hab hbc
  · intro a b
    rw [Bool.or_eq_true, isLE_iff_ne_gt]
    refine Decidable.or_iff_not_imp_left.mpr fun h => ?_
    rw [Std.OrientedCmp.gt_iff_lt.mp (Decidable.not_not.mp h)]
    rfl

theorem pairwise_sort (o : ResultOrder) (base : VertexId) (l : List Relation) :
    (o.sort base l).Pairwise fun a b => o.cmp base a b ≠ .gt :=
  pairwise_mergeSort l

theorem perm_sort (o : ResultOrder) (base : VertexId) (l : List Relation) :
    (o.sort base l).Perm l :=
  List.mergeSort_perm l _

/-- Of two relations the later one is moved back. -/
theorem sort_pair {o : ResultOrder} (h : o.cmp base a b = .gt) : o.sort base [a, b] = [b, a] := by
  simp [sort, List.mergeSort, List.MergeSort.Internal.splitInTwo, h]

theorem cmp_isEmpty {o : ResultOrder} (h : o.isEmpty = true) (base : VertexId)
    (a b : Relation) : o.cmp base a b = .eq := by
  unfold cmp
  rw [List.isEmpty_iff.mp h]
  cases o.direction.getD .asc <;> rfl

theorem pairwise_of_isEmpty {o : ResultOrder} (h : o.isEmpty = true) (base : VertexId)
    (l : List Relation) : l.Pairwise fun a b => o.cmp base a b ≠ .gt := by
  refine List.pairwise_of_forall fun a b => ?_
  rw [cmp_isEmpty h]
  simp

end ResultOrder

/-! ## Parts that were cut short -/

section

variable {α β : Type} {cmp : α → α → Ordering} {wanted : Nat} {whole : β → List α} {xs : List β}
  {parts : List (List α)}

/-- What was read of a source: all of it, or a first part that is long enough, of a sorted source. -/
def GoodPart (cmp : α → α → Ordering) (wanted : Nat) (whole part : List α) : Prop :=
  part <+: whole ∧
    (part = whole ∨ wanted ≤ part.length ∧ whole.Pairwise fun a b => cmp a b ≠ .gt)

/-- What is missing of the sources is not before a part that is long enough. -/
theorem exists_rest (h : List.Forall₂ (fun x part => GoodPart cmp wanted (whole x) part) xs parts) :
    ∃ rest, (parts.flatten ++ rest).Perm (xs.flatMap whole) ∧
      ∀ x ∈ rest, ∃ part ∈ parts, wanted ≤ part.length ∧ ∀ y ∈ part, cmp y x ≠ .gt := by
  induction h with
  | nil => exact ⟨[], by simp, by simp⟩
  | @cons x part xs parts hx _ ih =>
    obtain ⟨⟨more, hmore⟩, hcut⟩ := hx
    obtain ⟨rest, hperm, hrest⟩ := ih
    refine ⟨more ++ rest, ?_, fun z hz => ?_⟩
    · rw [List.flatten_cons, List.flatMap_cons, ← hmore, List.append_assoc, List.append_assoc]
      refine List.Perm.append_left part ?_
      rw [← List.append_assoc]
      refine (List.perm_append_comm.append_right rest).trans ?_
      rw [List.append_assoc]
      exact hperm.append_left more
    · rcases List.mem_append.mp hz with hz | hz
      · rcases hcut with he | ⟨hl, hsorted⟩
        · have hnil : more = [] := by simpa [he] using hmore
          rw [hnil] at hz
          cases hz
        · rw [← hmore] at hsorted
          exact ⟨part, List.mem_cons_self, hl,
            fun y hy => (List.pairwise_append.mp hsorted).2.2 y hy z hz⟩
      · obtain ⟨p, hp, hl, hle⟩ := hrest z hz
        exact ⟨p, List.mem_cons_of_mem _ hp, hl, hle⟩

variable [Std.TransCmp cmp]

/-- What is after as many items as are wanted is not before one of the first of them. -/
theorem not_before_of_part {sorted part : List α} (hs : sorted.Pairwise fun a b => cmp a b ≠ .gt)
    (hp : part.Subperm sorted) (hl : wanted ≤ part.length) {x : α} (hx : ∀ y ∈ part, cmp y x ≠ .gt)
    {y : α} (hy : y ∈ sorted.take wanted) : cmp x y ≠ .lt := by
  intro hlt
  have hbefore (z : α) (hz : z ∈ part) : cmp z y = .lt :=
    Std.TransCmp.lt_of_isLE_of_lt (ResultOrder.isLE_iff_ne_gt.mpr (hx z hz)) hlt
  -- the part has as many items before `y` as are wanted, and they all stand among the first
  have hcount : wanted ≤ (sorted.take wanted).countP fun z => cmp z y == .lt := by
    have hpart : part.countP (fun z => cmp z y == .lt) = part.length :=
      List.countP_eq_length.mpr fun z hz => by simp [hbefore z hz]
    have hdrop : (sorted.drop wanted).countP (fun z => cmp z y == .lt) = 0 := by
      refine List.countP_eq_zero.mpr fun z hz => ?_
      rw [← List.take_append_drop wanted sorted] at hs
      have hyz := (List.pairwise_append.mp hs).2.2 y hy z hz
      intro hzy
      exact hyz (Std.OrientedCmp.gt_iff_lt.mpr (beq_iff_eq.mp hzy))
    have hall := hp.countP_le (fun z => cmp z y == .lt)
    rw [hpart, ← List.take_append_drop wanted sorted, List.countP_append, hdrop] at hall
    omega
  have hle : (sorted.take wanted).countP (fun z => cmp z y == .lt) = (sorted.take wanted).length :=
    Nat.le_antisymm List.countP_le_length
      (Nat.le_trans (by rw [List.length_take]; exact Nat.min_le_left ..) hcount)
  have hself := List.countP_eq_length.mp hle y hy
  have hrefl : cmp y y = .eq := Std.ReflCmp.compare_self
  rw [hrefl] at hself
  cases hself

/-- Sorted and cut, good parts of sources together with something else give as many results as are
wanted, or all there are, and what is left out is not before a result. -/
theorem best_of_parts {added sorted : List α}
    (h : List.Forall₂ (fun x part => GoodPart cmp wanted (whole x) part) xs parts)
    (hs : sorted.Pairwise fun a b => cmp a b ≠ .gt) (hperm : sorted.Perm (parts.flatten ++ added)) :
    ∃ left, (sorted.take wanted ++ left).Perm (xs.flatMap whole ++ added) ∧
      (sorted.take wanted).length = min wanted (xs.flatMap whole ++ added).length ∧
      ∀ x ∈ left, ∀ y ∈ sorted.take wanted, cmp x y ≠ .lt := by
  obtain ⟨rest, hrest, hlate⟩ := exists_rest h
  have hsub {part : List α} (hp : part ∈ parts) : part.Subperm sorted :=
    ((List.sublist_flatten_of_mem hp).trans (List.sublist_append_left ..)).subperm.trans
      hperm.symm.subperm
  have hall : (sorted ++ rest).Perm (xs.flatMap whole ++ added) := by
    refine (hperm.append_right rest).trans ?_
    rw [List.append_assoc]
    refine (List.perm_append_comm.append_left parts.flatten).trans ?_
    rw [← List.append_assoc]
    exact hrest.append_right added
  refine ⟨sorted.drop wanted ++ rest, ?_, ?_, fun x hx y hy => ?_⟩
  · rw [← List.append_assoc, List.take_append_drop]
    exact hall
  · rw [← hall.length_eq, List.length_append, List.length_take]
    cases rest with
    | nil => simp
    | cons x rest =>
      obtain ⟨part, hp, hl, -⟩ := hlate x List.mem_cons_self
      have := (hsub hp).length_le
      omega
  · rcases List.mem_append.mp hx with hx | hx
    · rw [← List.take_append_drop wanted sorted] at hs
      have hyx := (List.pairwise_append.mp hs).2.2 y hy x hx
      exact fun hlt => hyx (Std.OrientedCmp.gt_iff_lt.mpr hlt)
    · obtain ⟨part, hp, hl, hle⟩ := hlate x hx
      exact not_before_of_part hs (hsub hp) hl hle hy

end

/-! ## The best of all -/

section

variable {α β : Type} {cmp : α → α → Ordering} {limit : Nat} {all part : List α}

/-- Of all results those that a query with a limit asks for: as many as it wants, or all of them, sorted,
and nothing that is left out is before one of them. -/
def BestPart (cmp : α → α → Ordering) (limit : Nat) (all part : List α) : Prop :=
  ∃ left, (part ++ left).Perm all ∧
    part.length = (if limit = ReadLimit.most then all.length else min limit all.length) ∧
    (part.Pairwise fun a b => cmp a b ≠ .gt) ∧ ∀ x ∈ left, ∀ y ∈ part, cmp x y ≠ .lt

theorem BestPart.of_perm (h : BestPart cmp limit all part) {all' : List α} (hp : all.Perm all') :
    BestPart cmp limit all' part := by
  obtain ⟨left, hperm, hlen, hsorted, hbest⟩ := h
  exact ⟨left, hperm.trans hp, by rw [hlen, hp.length_eq], hsorted, hbest⟩

/-- Without a limit all results are asked for. -/
theorem bestPart_all (hs : part.Pairwise fun a b => cmp a b ≠ .gt) (hp : part.Perm all) :
    BestPart cmp ReadLimit.most all part :=
  ⟨[], by rwa [List.append_nil], by rw [if_pos rfl, hp.length_eq], hs, by simp⟩

theorem BestPart.perm (h : BestPart cmp ReadLimit.most all part) : part.Perm all := by
  obtain ⟨left, hperm, hlen, -⟩ := h
  have htotal := hperm.length_eq
  rw [List.length_append, hlen, if_pos rfl] at htotal
  have hnil : left = [] := List.length_eq_zero_iff.mp (by omega)
  rwa [hnil, List.append_nil] at hperm

theorem BestPart.map {f : β → α} {all part : List β}
    (h : BestPart (fun a b => cmp (f a) (f b)) limit all part) :
    BestPart cmp limit (all.map f) (part.map f) := by
  obtain ⟨left, hperm, hlen, hsorted, hbest⟩ := h
  refine ⟨left.map f, ?_, ?_, List.pairwise_map.mpr hsorted, ?_⟩
  · rw [← List.map_append]
    exact hperm.map f
  · rwa [List.length_map, List.length_map]
  · simpa using hbest

section Parts

variable {xs : List β} {whole : β → List α} {parts : List (List α)}

theorem pairwise_of_bestParts
    (h : List.Forall₂ (fun x part => BestPart cmp limit (whole x) part) xs parts) :
    ∀ part ∈ parts, part.Pairwise fun a b => cmp a b ≠ .gt := by
  induction h with
  | nil => simp
  | cons hx _ ih =>
    obtain ⟨-, -, -, hsorted, -⟩ := hx
    exact List.forall_mem_cons.mpr ⟨hsorted, ih⟩

theorem perm_of_bestParts
    (h : List.Forall₂ (fun x part => BestPart cmp ReadLimit.most (whole x) part) xs parts) :
    parts.flatten.Perm (xs.flatMap whole) := by
  induction h with
  | nil => exact List.Perm.refl _
  | cons hx _ ih => exact hx.perm.append ih

end Parts

variable [Std.TransCmp cmp]

/-- What is sorted is cut to the best part. -/
theorem bestPart_cut (hs : all.Pairwise fun a b => cmp a b ≠ .gt) :
    BestPart cmp limit all (ReadLimit.cut limit all) := by
  unfold ReadLimit.cut
  split
  · rename_i hm
    subst hm
    exact bestPart_all hs (List.Perm.refl _)
  · rename_i hm
    refine ⟨all.drop limit, by rw [List.take_append_drop], ?_, hs.sublist (List.take_sublist ..),
      fun x hx y hy hlt => ?_⟩
    · rw [if_neg hm, List.length_take]
    · rw [← List.take_append_drop limit all] at hs
      exact (List.pairwise_append.mp hs).2.2 y hy x hx (Std.OrientedCmp.gt_iff_lt.mpr hlt)

/-- A best part is a good part of all results in some order. -/
theorem BestPart.goodPart (h : BestPart cmp limit all part) :
    ∃ whole, whole.Perm all ∧ GoodPart cmp limit whole part := by
  obtain ⟨left, hperm, hlen, hsorted, hbest⟩ := h
  let rest := left.mergeSort fun a b => (cmp a b).isLE
  have hrest : rest.Perm left := List.mergeSort_perm left _
  refine ⟨part ++ rest, (hrest.append_left part).trans hperm, List.prefix_append _ _, ?_⟩
  cases hl : left with
  | nil =>
    rw [hl] at hrest
    rw [List.Perm.eq_nil hrest, List.append_nil]
    exact .inl rfl
  | cons x xs =>
    have htotal := hperm.length_eq
    rw [List.length_append, hl, List.length_cons] at htotal
    refine .inr ⟨?_, List.pairwise_append.mpr
      ⟨hsorted, ResultOrder.pairwise_mergeSort left, fun y hy z hz hgt => ?_⟩⟩
    · split at hlen <;> omega
    · exact hbest z (hrest.mem_iff.mp hz) y hy (Std.OrientedCmp.gt_iff_lt.mp hgt)

theorem exists_good {xs : List β} {whole : β → List α} {parts : List (List α)}
    (h : List.Forall₂ (fun x part => BestPart cmp limit (whole x) part) xs parts) :
    ∃ wholes : List (List α), wholes.flatten.Perm (xs.flatMap whole) ∧
      List.Forall₂ (GoodPart cmp limit) wholes parts := by
  induction h with
  | nil => exact ⟨[], by simp, .nil⟩
  | cons hx _ ih =>
    obtain ⟨w, hw, hpart⟩ := hx.goodPart
    obtain ⟨ws, hws, hparts⟩ := ih
    exact ⟨w :: ws, hw.append hws, .cons hpart hparts⟩

/-- The best parts of several sources, merged and cut, are the best part of all. -/
theorem bestPart_merged {xs : List β} {whole : β → List α} {parts : List (List α)} {merged : List α}
    (h : List.Forall₂ (fun x part => BestPart cmp limit (whole x) part) xs parts)
    (hperm : merged.Perm parts.flatten) (hs : merged.Pairwise fun a b => cmp a b ≠ .gt) :
    BestPart cmp limit (xs.flatMap whole) (ReadLimit.cut limit merged) := by
  by_cases hm : limit = ReadLimit.most
  · subst hm
    rw [ReadLimit.cut, if_pos rfl]
    exact bestPart_all hs (hperm.trans (perm_of_bestParts h))
  · rw [ReadLimit.cut, if_neg hm]
    obtain ⟨wholes, hwholes, hgood⟩ := exists_good h
    have hparts : List.Forall₂ (fun w part => GoodPart cmp limit (id w) part) wholes parts := hgood
    have hnothing : merged.Perm (parts.flatten ++ []) := by rwa [List.append_nil]
    obtain ⟨left, hall, hlen, hbest⟩ := best_of_parts hparts hs hnothing
    rw [List.append_nil, List.flatMap_id] at hall hlen
    refine BestPart.of_perm ⟨left, hall, ?_, hs.sublist (List.take_sublist ..), hbest⟩ hwholes
    rw [if_neg hm, hlen]

end

end RowGraph
