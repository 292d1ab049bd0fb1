import RowGraph.SortedMap

/-!
# Looking up in sorted maps

With a lawful order of keys a sorted map is the function that `get?` says it is: the bindings in its
list are the pairs that looking up finds (`mem_toList_iff`), putting and erasing change one key
(`get?_put`, `get?_erase`), of many bindings of a key the last counts (`get?_foldl_put`), putting in
what a map holds gives the map (`ofList_toList`), and maps that look alike are one (`ext_get?`).  Steps for all
bindings are read off key by key if each minds its own key (`look_foldl`).
-/

namespace RowGraph.SortedMap

variable {κ ν : Type} [Ord κ] [Std.LawfulEqOrd κ]

theorem compare_eq_iff {a b : κ} : compare a b = .eq ↔ a = b :=
  Std.LawfulEqCmp.compare_eq_iff_eq

theorem mem_of_find {k : κ} {v : ν} {l : List (κ × ν)} (h : find k l = some v) : (k, v) ∈ l := by
  induction l with
  | nil => simp [find] at h
  | cons b rest ih =>
    obtain ⟨k', v'⟩ := b
    unfold find at h
    split at h
    · rename_i hc
      rw [compare_eq_iff.mp hc, Option.some.inj h]
      exact List.mem_cons_self
    · exact List.mem_cons_of_mem _ (ih h)

theorem find_of_mem {k : κ} {v : ν} {l : List (κ × ν)}
    (hs : l.Pairwise (fun a b => compare a.1 b.1 = .lt)) (h : (k, v) ∈ l) : find k l = some v := by
  induction l with
  | nil => simp at h
  | cons b rest ih =>
    obtain ⟨k', v'⟩ := b
    obtain ⟨hhead, hrest⟩ := List.pairwise_cons.1 hs
    unfold find
    rcases List.mem_cons.1 h with h | h
    · cases h
      rw [if_pos (compare_eq_iff.mpr rfl)]
    · have hlt : compare k' k = .lt := hhead _ h
      rw [if_neg, ih hrest h]
      intro hc
      rw [compare_eq_iff.mp hc, compare_eq_iff.mpr rfl] at hlt
      simp at hlt

/-- A map binds what is in its list. -/
theorem mem_toList_iff {m : SortedMap κ ν} {k : κ} {v : ν} :
    (k, v) ∈ m.toList ↔ m.get? k = some v :=
  ⟨find_of_mem m.increasing, mem_of_find⟩

theorem mem_keys_iff {m : SortedMap κ ν} {k : κ} : k ∈ m.keys ↔ (m.get? k).isSome := by
  rw [Option.isSome_iff_exists]
  constructor
  · intro h
    obtain ⟨⟨k', v⟩, hb, rfl⟩ := List.mem_map.1 h
    exact ⟨v, mem_toList_iff.mp hb⟩
  · rintro ⟨v, h⟩
    exact List.mem_map.2 ⟨(k, v), mem_toList_iff.mpr h, rfl⟩

theorem mem_values_iff {m : SortedMap κ ν} {v : ν} : v ∈ m.values ↔ ∃ k, m.get? k = some v := by
  constructor
  · intro h
    obtain ⟨⟨k, v'⟩, hb, rfl⟩ := List.mem_map.1 h
    exact ⟨k, mem_toList_iff.mp hb⟩
  · rintro ⟨k, h⟩
    exact List.mem_map.2 ⟨(k, v), mem_toList_iff.mpr h, rfl⟩

/-! ## What is in increasing order -/

omit [Std.LawfulEqOrd κ] in
/-- Two lists that increase in their keys are the same if they have the same members. -/
theorem eq_of_increasing [Std.TransOrd κ] {α : Type} (key : α → κ) {l m : List α}
    (hl : l.Pairwise fun a b => compare (key a) (key b) = .lt)
    (hm : m.Pairwise fun a b => compare (key a) (key b) = .lt) (h : ∀ a, a ∈ l ↔ a ∈ m) : l = m := by
  have hasymm : ∀ a b : α, compare (key a) (key b) = .lt → compare (key b) (key a) ≠ .lt := by
    intro a b hab hba
    rw [Std.OrientedCmp.gt_iff_lt.mpr hab] at hba
    cases hba
  have hne : ∀ {a b : α}, compare (key a) (key b) = .lt → a ≠ b := by
    rintro a _ hlt rfl
    exact hasymm a a hlt hlt
  have hperm : l.Perm m := (List.perm_ext_iff_of_nodup (hl.imp hne) (hm.imp hne)).mpr h
  exact List.Perm.eq_of_pairwise (fun a b _ _ hab hba => absurd hba (hasymm a b hab)) hl hm hperm

/-- Two maps that look the same under every key are the same. -/
theorem ext_get? [Std.TransOrd κ] {a b : SortedMap κ ν} (h : ∀ k, a.get? k = b.get? k) : a = b := by
  refine ext_toList (eq_of_increasing Prod.fst a.increasing b.increasing ?_)
  rintro ⟨k, v⟩
  rw [mem_toList_iff, mem_toList_iff, h]

/-! ## Putting and erasing -/

variable [DecidableEq κ]

theorem find_place (k k' : κ) (v : ν) (l : List (κ × ν)) :
    find k' (place k v l) = if k' = k then some v else find k' l := by
  induction l with
  | nil =>
    simp only [place, find, compare_eq_iff]
  | cons b rest ih =>
    obtain ⟨j, w⟩ := b
    unfold place
    split
    · simp only [find, compare_eq_iff]
    · rename_i hc
      obtain rfl := compare_eq_iff.mp hc
      simp only [find, compare_eq_iff]
      split <;> rfl
    · rename_i hc
      have hne : k ≠ j := by
        rintro rfl
        rw [compare_eq_iff.mpr rfl] at hc
        simp at hc
      simp only [find, compare_eq_iff, ih]
      by_cases h : k' = j
      · subst h
        rw [if_pos rfl, if_neg (Ne.symm hne), if_pos rfl]
      · rw [if_neg h, if_neg h]

theorem find_discard (k k' : κ) (l : List (κ × ν)) :
    find k' (discard k l) = if k' = k then none else find k' l := by
  induction l with
  | nil => simp [discard, find]
  | cons b rest ih =>
    obtain ⟨j, w⟩ := b
    unfold discard at ih ⊢
    rw [List.filter_cons]
    by_cases hj : k = j
    · subst hj
      simp only [compare_eq_iff.mpr rfl, bne_self_eq_false, Bool.false_eq_true, if_false, ih, find,
        compare_eq_iff]
      split <;> simp_all
    · have hc : (compare k j != .eq) = true := by
        simpa using mt compare_eq_iff.mp hj
      simp only [hc, if_true, find, compare_eq_iff, ih]
      by_cases h : k' = j
      · subst h
        rw [if_pos rfl, if_neg (Ne.symm hj), if_pos rfl]
      · rw [if_neg h, if_neg h]

theorem get?_put [Std.TransOrd κ] (m : SortedMap κ ν) (k k' : κ) (v : ν) :
    (m.put k v).get? k' = if k' = k then some v else m.get? k' :=
  find_place k k' v m.toList

theorem get?_put_self [Std.TransOrd κ] (m : SortedMap κ ν) (k : κ) (v : ν) : (m.put k v).get? k = some v := by
  rw [get?_put, if_pos rfl]

theorem get?_put_of_ne [Std.TransOrd κ] {k k' : κ} (h : k' ≠ k) (m : SortedMap κ ν) (v : ν) :
    (m.put k v).get? k' = m.get? k' := by
  rw [get?_put, if_neg h]

/-- What is bound after a put is what was put, or it was bound before. -/
theorem get?_put_cases [Std.TransOrd κ] {m : SortedMap κ ν} {k k' : κ} {v v' : ν}
    (h : (m.put k v).get? k' = some v') : k' = k ∧ v' = v ∨ m.get? k' = some v' := by
  by_cases hk : k' = k
  · subst hk
    rw [get?_put_self] at h
    exact .inl ⟨rfl, (Option.some.inj h).symm⟩
  · rw [get?_put_of_ne hk] at h
    exact .inr h

omit [DecidableEq κ] in
theorem place_self [Std.OrientedOrd κ] {k : κ} {v : ν} {l : List (κ × ν)}
    (hs : l.Pairwise fun a b => compare a.1 b.1 = .lt) (h : find k l = some v) : place k v l = l := by
  induction l with
  | nil => cases h
  | cons b rest ih =>
    obtain ⟨k', v'⟩ := b
    obtain ⟨hhead, hrest⟩ := List.pairwise_cons.1 hs
    by_cases hk : compare k k' = .eq
    · obtain rfl := compare_eq_iff.mp hk
      unfold find at h
      rw [if_pos hk] at h
      cases h
      unfold place
      rw [hk]
    · unfold find at h
      rw [if_neg hk] at h
      have hlt : compare k' k = .lt := hhead _ (mem_of_find h)
      have hgt : compare k k' = .gt := Std.OrientedCmp.gt_iff_lt.mpr hlt
      unfold place
      rw [hgt]
      dsimp only
      rw [ih hrest h]

omit [DecidableEq κ] in
/-- Putting what is bound changes nothing. -/
theorem put_self [Std.TransOrd κ] {m : SortedMap κ ν} {k : κ} {v : ν} (h : m.get? k = some v) : m.put k v = m :=
  ext_toList (place_self m.increasing h)

theorem get?_erase (m : SortedMap κ ν) (k k' : κ) :
    (m.erase k).get? k' = if k' = k then none else m.get? k' :=
  find_discard k k' m.toList

theorem eq_empty_of_isEmpty {κ ν : Type} [Ord κ] {m : SortedMap κ ν} (h : m.isEmpty = true) :
    m = .empty :=
  ext_toList (List.isEmpty_iff.mp h)

/-! ## Steps for all bindings -/

/-- A step for every binding of a map, each of which changes what is seen under its own key only. -/
theorem look_foldl {σ γ : Type} (inv : σ → Prop) (look : σ → κ → γ) (own : ν → γ → γ)
    {step : σ → κ × ν → σ} (hinv : ∀ s b, inv s → inv (step s b))
    (hlook : ∀ s, inv s → ∀ k v k',
      look (step s (k, v)) k' = if k' = k then own v (look s k) else look s k')
    (m : SortedMap κ ν) {s : σ} (hs : inv s) (k : κ) :
    look (m.toList.foldl step s) k = (m.get? k).elim (look s k) (own · (look s k)) := by
  unfold get?
  have hincreasing := m.increasing
  generalize m.toList = l at hincreasing
  induction l generalizing s with
  | nil => rfl
  | cons b l ih =>
    obtain ⟨j, v⟩ := b
    obtain ⟨hhead, hrest⟩ := List.pairwise_cons.mp hincreasing
    rw [List.foldl_cons, ih (hinv s (j, v) hs) hrest, hlook s hs, find]
    by_cases hk : k = j
    · subst hk
      -- no later binding has the key
      have hnone : find k l = none := by
        cases hf : find k l with
        | none => rfl
        | some v' =>
          have hlt := hhead _ (mem_of_find hf)
          rw [compare_eq_iff.mpr rfl] at hlt
          cases hlt
      rw [hnone, if_pos rfl, if_pos (compare_eq_iff.mpr rfl)]
      rfl
    · rw [if_neg hk, if_neg (mt compare_eq_iff.mp hk)]

/-! ## Putting many -/

variable [Std.TransOrd κ]

/-- Bindings put in one after another: the last one of a key counts. -/
theorem get?_foldl_put {α : Type} (key : α → κ) (value : α → ν) (l : List α) (m : SortedMap κ ν) (k : κ) :
    (l.foldl (fun m a => m.put (key a) (value a)) m).get? k =
      ((l.reverse.find? fun a => key a = k).map value).or (m.get? k) := by
  induction l generalizing m with
  | nil => rfl
  | cons a l ih =>
    rw [List.foldl_cons, ih, List.reverse_cons, List.find?_append, get?_put]
    cases l.reverse.find? fun a => key a = k with
    | some b => rfl
    | none =>
      by_cases h : k = key a
      · simp [h]
      · simp [h, Ne.symm h]

theorem get?_ofList (l : List (κ × ν)) (k : κ) :
    (ofList l).get? k = (l.reverse.find? fun b => b.1 = k).map (·.2) := by
  unfold ofList
  rw [get?_foldl_put Prod.fst Prod.snd, get?_empty, Option.or_none]

omit [Std.LawfulEqOrd κ] [DecidableEq κ] in
theorem place_of_lt {k : κ} {l : List (κ × ν)} (v : ν) (h : ∀ b ∈ l, compare b.1 k = .lt) :
    place k v l = l ++ [(k, v)] := by
  induction l with
  | nil => rfl
  | cons b l ih =>
    obtain ⟨hb, hl⟩ := List.forall_mem_cons.mp h
    have hgt : compare k b.1 = .gt := Std.OrientedCmp.gt_iff_lt.mpr hb
    rw [place, hgt]
    exact congrArg (b :: ·) (ih hl)

omit [Std.LawfulEqOrd κ] [DecidableEq κ] in
/-- Bindings put in one after another in the order of their keys stay as they are. -/
theorem toList_foldl_put (l : List (κ × ν)) (m : SortedMap κ ν)
    (h : (m.toList ++ l).Pairwise fun a b => compare a.1 b.1 = .lt) :
    (l.foldl (fun m b => m.put b.1 b.2) m).toList = m.toList ++ l := by
  induction l generalizing m with
  | nil => rw [List.foldl_nil, List.append_nil]
  | cons b l ih =>
    have hput : (m.put b.1 b.2).toList = m.toList ++ [b] :=
      place_of_lt b.2 fun a ha => (List.pairwise_append.mp h).2.2 a ha b List.mem_cons_self
    have hassoc : (m.put b.1 b.2).toList ++ l = m.toList ++ b :: l := by
      rw [hput, List.append_assoc, List.singleton_append]
    rw [List.foldl_cons, ih (m.put b.1 b.2) (hassoc ▸ h), hassoc]

omit [Std.LawfulEqOrd κ] [DecidableEq κ] in
theorem toList_ofList {l : List (κ × ν)} (h : l.Pairwise fun a b => compare a.1 b.1 = .lt) :
    (ofList l).toList = l :=
  toList_foldl_put l .empty h

omit [Std.LawfulEqOrd κ] [DecidableEq κ] in
theorem ofList_toList (m : SortedMap κ ν) : ofList m.toList = m :=
  ext_toList (toList_ofList m.increasing)

omit [Std.LawfulEqOrd κ] [DecidableEq κ] [Std.TransOrd κ] in
theorem get?_mapValues {ω : Type} (f : ν → ω) (m : SortedMap κ ν) (k : κ) : (m.mapValues f).get? k = (m.get? k).map f := by
  have hfind (l : List (κ × ν)) : find k (l.map fun b => (b.1, f b.2)) = (find k l).map f := by
    induction l with
    | nil => rfl
    | cons b l ih =>
      obtain ⟨k', v⟩ := b
      simp only [List.map_cons, find, ih]
      split <;> rfl
  exact hfind m.toList

end RowGraph.SortedMap
