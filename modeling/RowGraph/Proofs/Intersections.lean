import RowGraph.Proofs.BestResults
import RowGraph.Proofs.Intervals

/-!
# Intersecting many intervals

An intersection is the same in either order, but not in every grouping: where a closed range over one
value has become a point on the way, a plainly empty intersection is a list without points, otherwise
it may be a range whose bounds cross.  That is all the difference there is (`intersect_assoc`).  Two
intervals that are equal or both plainly empty are therefore called alike; intersections of alike intervals are alike,
and of a family of intervals all intersections, in whatever order and grouping, are alike.

* `Sorted`: what holds of all intervals that are ever made.
* `alike_foldl_meet`: the order of a family makes no difference.
* `intersect_laws`: intersecting is intersecting sets.
-/

namespace RowGraph

/-! ## The tighter of two bounds -/

namespace Bound

variable {a b c : Bound} {x y : Value}

/-- The tighter of two bounds: that of the greater value, or the stricter one if both have the same. -/
def tighter (cmp : Value → Value → Ordering) (a b : Bound) : Bound :=
  match a.value?, b.value? with
  | none, _ => b
  | _, none => a
  | some x, some y =>
    match cmp x y with
    | .gt => a
    | .lt => b
    | .eq => stricter a b

theorem tighterLower_eq (a b : Bound) : a.tighterLower b = tighter compare a b := rfl

/-- Of upper bounds the lesser value counts. -/
theorem tighterUpper_eq (a b : Bound) : a.tighterUpper b = tighter (fun x y => compare y x) a b := by
  unfold tighterUpper tighter
  cases a.value? with
  | none => rfl
  | some x =>
    cases b.value? with
    | none => rfl
    | some y =>
      have hswap : compare y x = (compare x y).swap := Std.OrientedCmp.eq_swap
      simp only [hswap]
      cases compare x y <;> rfl

/-- Is a value on the inner side of a bound? -/
def allows (cmp : Value → Value → Ordering) (a : Bound) (w : Value) : Bool :=
  match a with
  | unbounded => true
  | included s => (cmp s w).isLE
  | excluded s => cmp s w == .lt

theorem allowsAbove_eq (a : Bound) (w : Value) : a.allowsAbove w = allows compare a w := by
  cases a <;> rfl

theorem allowsBelow_eq (a : Bound) (w : Value) : a.allowsBelow w = allows (fun x y => compare y x) a w := by
  cases a <;> rfl

/-- There is an end on either side and no value between them, as far as their order tells. -/
def Crosses (cmp : Value → Value → Ordering) (a b : Bound) : Prop :=
  ∃ x y, a.value? = some x ∧ b.value? = some y ∧
    (cmp y x = .lt ∨ x = y ∧ ¬ (a = included x ∧ b = included y))

theorem crosses_flip : Crosses compare a b ↔ Crosses (fun x y => compare y x) b a := by
  constructor
  · rintro ⟨x, y, ha, hb, h⟩
    refine ⟨y, x, hb, ha, h.imp_right ?_⟩
    rintro ⟨rfl, hnot⟩
    exact ⟨rfl, fun ⟨h, h'⟩ => hnot ⟨h', h⟩⟩
  · rintro ⟨y, x, hb, ha, h⟩
    refine ⟨x, y, ha, hb, h.imp_right ?_⟩
    rintro ⟨rfl, hnot⟩
    exact ⟨rfl, fun ⟨h, h'⟩ => hnot ⟨h', h⟩⟩

theorem eq_unbounded (h : a.value? = none) : a = unbounded := by
  cases a <;> simp_all [value?]

theorem value?_stricter (ha : a.value? = some x) (hb : b.value? = some x) :
    (stricter a b).value? = some x := by
  cases a <;> simp_all [stricter]

theorem stricter_comm (ha : a.value? = some x) (hb : b.value? = some x) : stricter a b = stricter b a := by
  cases a <;> cases b <;> simp_all [stricter, value?]

theorem stricter_assoc (a b c : Bound) : stricter (stricter a b) c = stricter a (stricter b c) := by
  cases a <;> rfl

section

variable {cmp : Value → Value → Ordering}

theorem tighter_unbounded_left (b : Bound) : tighter cmp unbounded b = b := rfl

theorem tighter_unbounded_right (a : Bound) : tighter cmp a unbounded = a := by
  cases a <;> rfl

theorem tighter_of_gt (ha : a.value? = some x) (hb : b.value? = some y) (h : cmp x y = .gt) :
    tighter cmp a b = a := by
  simp [tighter, ha, hb, h]

theorem tighter_of_lt (ha : a.value? = some x) (hb : b.value? = some y) (h : cmp x y = .lt) :
    tighter cmp a b = b := by
  simp [tighter, ha, hb, h]

theorem tighter_of_eq [Std.ReflCmp cmp] (ha : a.value? = some x) (hb : b.value? = some x) :
    tighter cmp a b = stricter a b := by
  simp [tighter, ha, hb, Std.ReflCmp.compare_self]

variable [Std.TransCmp cmp] [Std.LawfulEqCmp cmp]

theorem tighter_comm (a b : Bound) : tighter cmp a b = tighter cmp b a := by
  cases ha : a.value? with
  | none =>
    rw [eq_unbounded ha, tighter_unbounded_left, tighter_unbounded_right]
  | some x =>
    cases hb : b.value? with
    | none =>
      rw [eq_unbounded hb, tighter_unbounded_left, tighter_unbounded_right]
    | some y =>
      cases h : cmp x y with
      | gt => rw [tighter_of_gt ha hb h, tighter_of_lt hb ha (Std.OrientedCmp.gt_iff_lt.mp h)]
      | lt => rw [tighter_of_lt ha hb h, tighter_of_gt hb ha (Std.OrientedCmp.gt_iff_lt.mpr h)]
      | eq =>
        obtain rfl := Std.LawfulEqCmp.eq_of_compare h
        rw [tighter_of_eq ha hb, tighter_of_eq hb ha, stricter_comm ha hb]

theorem tighter_assoc (a b c : Bound) :
    tighter cmp (tighter cmp a b) c = tighter cmp a (tighter cmp b c) := by
  cases ha : a.value? with
  | none => rw [eq_unbounded ha, tighter_unbounded_left, tighter_unbounded_left]
  | some x =>
  cases hb : b.value? with
  | none => rw [eq_unbounded hb, tighter_unbounded_left, tighter_unbounded_right]
  | some y =>
  cases hc : c.value? with
  | none => rw [eq_unbounded hc, tighter_unbounded_right, tighter_unbounded_right]
  | some z =>
  cases hxy : cmp x y with
  | gt =>
    rw [tighter_of_gt ha hb hxy]
    cases hyz : cmp y z with
    | gt => rw [tighter_of_gt hb hc hyz, tighter_of_gt ha hb hxy, tighter_of_gt ha hc (Std.TransCmp.gt_trans hxy hyz)]
    | lt => rw [tighter_of_lt hb hc hyz]
    | eq =>
      obtain rfl := Std.LawfulEqCmp.eq_of_compare hyz
      rw [tighter_of_eq hb hc, tighter_of_gt ha hc hxy, tighter_of_gt ha (value?_stricter hb hc) hxy]
  | lt =>
    rw [tighter_of_lt ha hb hxy]
    cases hyz : cmp y z with
    | gt => rw [tighter_of_gt hb hc hyz, tighter_of_lt ha hb hxy]
    | lt => rw [tighter_of_lt hb hc hyz, tighter_of_lt ha hc (Std.TransCmp.lt_trans hxy hyz)]
    | eq =>
      obtain rfl := Std.LawfulEqCmp.eq_of_compare hyz
      rw [tighter_of_eq hb hc, tighter_of_lt ha (value?_stricter hb hc) hxy]
  | eq =>
    obtain rfl := Std.LawfulEqCmp.eq_of_compare hxy
    rw [tighter_of_eq ha hb]
    cases hyz : cmp x z with
    | gt =>
      rw [tighter_of_gt hb hc hyz, tighter_of_eq ha hb, tighter_of_gt (value?_stricter ha hb) hc hyz]
    | lt => rw [tighter_of_lt hb hc hyz, tighter_of_lt ha hc hyz, tighter_of_lt (value?_stricter ha hb) hc hyz]
    | eq =>
      obtain rfl := Std.LawfulEqCmp.eq_of_compare hyz
      rw [tighter_of_eq hb hc, tighter_of_eq (value?_stricter ha hb) hc, tighter_of_eq ha (value?_stricter hb hc),
        stricter_assoc]

/-- A closed bound at an allowed value is the tighter one. -/
theorem tighter_included (h : allows cmp a x = true) : tighter cmp (included x) a = included x := by
  cases a with
  | unbounded => rfl
  | included s =>
    cases hc : cmp s x with
    | lt => exact tighter_of_gt rfl rfl (Std.OrientedCmp.gt_iff_lt.mpr hc)
    | eq =>
      obtain rfl := Std.LawfulEqCmp.eq_of_compare hc
      exact tighter_of_eq rfl rfl
    | gt => simp [allows, hc] at h
  | excluded s => exact tighter_of_gt rfl rfl (Std.OrientedCmp.gt_iff_lt.mpr (beq_iff_eq.mp h))

/-- A bound that leaves a value out is tighter than the closed one at this value. -/
theorem tighter_of_not_allows (h : allows cmp a x = false) : tighter cmp (included x) a = a := by
  cases a with
  | unbounded => cases h
  | included s =>
    cases hc : cmp s x with
    | gt => exact tighter_of_lt rfl rfl (Std.OrientedCmp.gt_iff_lt.mp hc)
    | lt => simp [allows, hc] at h
    | eq => simp [allows, hc] at h
  | excluded s =>
    cases hc : cmp s x with
    | gt => exact tighter_of_lt rfl rfl (Std.OrientedCmp.gt_iff_lt.mp hc)
    | eq =>
      obtain rfl := Std.LawfulEqCmp.eq_of_compare hc
      exact tighter_of_eq rfl rfl
    | lt => simp [allows, hc] at h

/-- A bound that leaves the value of a closed bound out crosses it. -/
theorem crosses_of_not_allows (h : allows cmp a x = false) : Crosses cmp a (included x) := by
  cases a with
  | unbounded => cases h
  | included s =>
    refine ⟨s, x, rfl, rfl, .inl (Std.OrientedCmp.gt_iff_lt.mp ?_)⟩
    cases hc : cmp s x <;> simp_all [allows]
  | excluded s =>
    refine ⟨s, x, rfl, rfl, ?_⟩
    cases hc : cmp s x with
    | lt => simp [allows, hc] at h
    | eq => exact .inr ⟨Std.LawfulEqCmp.eq_of_compare hc, by simp⟩
    | gt => exact .inl (Std.OrientedCmp.gt_iff_lt.mp hc)

/-- Bounds that cross still do when one of them gets tighter. -/
theorem Crosses.tighter (h : Crosses cmp a b) (c : Bound) : Crosses cmp (tighter cmp a c) b := by
  obtain ⟨x, y, ha, hb, hxy⟩ := h
  have hle : (cmp y x).isLE := by
    rcases hxy with hlt | ⟨rfl, -⟩
    · simp [hlt]
    · exact Std.ReflCmp.isLE_rfl
  cases hc : c.value? with
  | none =>
    rw [eq_unbounded hc, tighter_unbounded_right]
    exact ⟨x, y, ha, hb, hxy⟩
  | some z =>
    cases hxz : cmp x z with
    | gt =>
      rw [tighter_of_gt ha hc hxz]
      exact ⟨x, y, ha, hb, hxy⟩
    | lt =>
      rw [tighter_of_lt ha hc hxz]
      exact ⟨z, y, hc, hb, .inl (Std.TransCmp.lt_of_isLE_of_lt hle hxz)⟩
    | eq =>
      obtain rfl := Std.LawfulEqCmp.eq_of_compare hxz
      rw [tighter_of_eq ha hc]
      refine ⟨x, y, value?_stricter ha hc, hb, hxy.imp_right fun ⟨he, hnot⟩ => ⟨he, ?_⟩⟩
      -- if both bounds at `x` are closed now, the first one was before
      rintro ⟨hclosed, hb'⟩
      cases a <;> simp_all [stricter, value?]

end

/-! The two ends of a range -/

theorem tighterLower_comm (a b : Bound) : a.tighterLower b = b.tighterLower a := tighter_comm a b

theorem tighterLower_assoc (a b c : Bound) :
    (a.tighterLower b).tighterLower c = a.tighterLower (b.tighterLower c) := tighter_assoc a b c

instance transCmp_flip : Std.TransCmp fun x y : Value => compare y x := Std.TransCmp.opposite

instance lawfulEqCmp_flip : Std.LawfulEqCmp fun x y : Value => compare y x := Std.LawfulEqCmp.opposite

theorem tighterUpper_comm (a b : Bound) : a.tighterUpper b = b.tighterUpper a := by
  rw [tighterUpper_eq, tighterUpper_eq, tighter_comm]

theorem tighterUpper_assoc (a b c : Bound) :
    (a.tighterUpper b).tighterUpper c = a.tighterUpper (b.tighterUpper c) := by
  simp only [tighterUpper_eq, tighter_assoc]

end Bound

namespace Interval

/-! ## Sorted intervals -/

/-- The points, if the interval has any, are in increasing order, none of them twice. -/
def Sorted : Interval → Prop
  | points values => values.Pairwise fun a b => compare a b = .lt
  | range _ _ => True

instance (i : Interval) : Decidable i.Sorted :=
  match i with
  | points values => inferInstanceAs (Decidable (values.Pairwise _))
  | range _ _ => isTrue trivial

variable {i j k : Interval} {values : List Value}

theorem sorted_point (v : Value) : (point v).Sorted := List.pairwise_singleton _ v

theorem sorted_between (lower upper : Bound) : (between lower upper).Sorted := by
  unfold between
  split
  · split
    · exact sorted_point _
    · trivial
  · trivial

theorem pairwise_dropRepeats (h : values.Pairwise fun a b => compare a b ≠ .gt) :
    (dropRepeats values).Pairwise fun a b => compare a b = .lt := by
  induction values with
  | nil => exact .nil
  | cons v rest ih =>
    obtain ⟨hv, hrest⟩ := List.pairwise_cons.mp h
    have hdrop := ih hrest
    have hmem : ∀ w ∈ dropRepeats rest, compare v w ≠ .gt := fun w hw => hv w (mem_dropRepeats.mp hw)
    unfold dropRepeats
    split
    · exact List.pairwise_singleton _ v
    · rename_i w tail hd
      rw [hd] at hdrop hmem
      split
      · exact hdrop
      · rename_i hne
        have hvw : compare v w = .lt := by
          cases hc : compare v w with
          | lt => rfl
          | eq => exact absurd (Std.LawfulEqCmp.eq_of_compare hc) hne
          | gt => exact absurd hc (hmem w List.mem_cons_self)
        refine List.pairwise_cons.mpr ⟨?_, hdrop⟩
        intro u hu
        rcases List.mem_cons.mp hu with rfl | hu
        · exact hvw
        · exact Std.TransCmp.lt_trans hvw ((List.pairwise_cons.mp hdrop).1 u hu)

theorem sorted_ofValues (values : List Value) : (ofValues values).Sorted :=
  pairwise_dropRepeats (ResultOrder.pairwise_mergeSort values)

/-- Intersecting keeps points in order. -/
theorem sorted_intersect (hi : i.Sorted) (hj : j.Sorted) : (i.intersect j).Sorted := by
  cases i with
  | points a => exact List.Pairwise.filter _ hi
  | range l u =>
    cases j with
    | points b => exact List.Pairwise.filter _ hj
    | range l' u' => exact sorted_between _ _

/-- Two sorted intervals given by points are the same if they hold the same values. -/
theorem eq_of_isPoints (hi : i.Sorted) (hj : j.Sorted) (hip : i.isPoints = true) (hjp : j.isPoints = true)
    (h : ∀ w, i.contains w = true ↔ j.contains w = true) : i = j := by
  cases i with
  | range l u => cases hip
  | points a =>
    cases j with
    | range l u => cases hjp
    | points b =>
      refine congrArg points (SortedMap.eq_of_increasing id hi hj fun w => ?_)
      simpa [contains] using h w

theorem isPoints_intersect (h : i.isPoints = true ∨ j.isPoints = true) : (i.intersect j).isPoints = true := by
  cases i with
  | points a => rfl
  | range l u =>
    cases j with
    | points b => rfl
    | range l' u' => simp [isPoints] at h

theorem exists_range (h : ¬ i.isPoints = true) : ∃ l u, i = range l u := by
  cases i with
  | points a => exact absurd rfl h
  | range l u => exact ⟨l, u, rfl⟩

/-- Intersections are the same in either order. -/
theorem intersect_comm (hi : i.Sorted) (hj : j.Sorted) : i.intersect j = j.intersect i := by
  by_cases hp : i.isPoints = true ∨ j.isPoints = true
  · refine eq_of_isPoints (sorted_intersect hi hj) (sorted_intersect hj hi) (isPoints_intersect hp)
      (isPoints_intersect hp.symm) fun w => ?_
    rw [contains_intersect, contains_intersect, and_comm]
  · obtain ⟨l, u, rfl⟩ := exists_range fun h => hp (.inl h)
    obtain ⟨l', u', rfl⟩ := exists_range fun h => hp (.inr h)
    rw [intersect, intersect, Bound.tighterLower_comm, Bound.tighterUpper_comm]

/-! ## Plainly empty intervals -/

variable {l u l' u' : Bound}

theorem isEmpty_range_iff : (range l u).isEmpty = true ↔ Bound.Crosses compare l u := by
  unfold Bound.Crosses
  have hle : ∀ x y : Value, (compare y x).isLE = true ↔ compare y x = .lt ∨ x = y := by
    intro x y
    cases hc : compare y x with
    | lt => simp
    | eq => simp [Std.LawfulEqCmp.eq_of_compare hc]
    | gt =>
      have hne : x ≠ y := by
        rintro rfl
        rw [SortedMap.compare_eq_iff.mpr rfl] at hc
        cases hc
      simp [hne]
  have hgt : ∀ x y : Value, compare x y = .gt ↔ compare y x = .lt := fun x y => Std.OrientedCmp.gt_iff_lt
  cases l <;> cases u <;> simp [isEmpty, Bound.value?, hle, hgt]

theorem isEmpty_between (l u : Bound) : (between l u).isEmpty = (range l u).isEmpty := by
  unfold between
  split
  · rename_i a b
    split
    · rename_i hab
      subst hab
      simp [point, isEmpty, Bound.value?]
    · rfl
  · rfl

/-- What lies in a plainly empty interval and another one is plainly nothing. -/
theorem isEmpty_intersect (h : i.isEmpty = true) (j : Interval) : (i.intersect j).isEmpty = true := by
  cases i with
  | points a =>
    obtain rfl := List.isEmpty_iff.mp h
    rfl
  | range l u =>
    cases j with
    | points b =>
      rw [intersect, isEmpty, List.isEmpty_iff, List.filter_eq_nil_iff]
      intro w hw
      simp [not_contains_of_isEmpty h w]
    | range l' u' =>
      rw [intersect, isEmpty_between, isEmpty_range_iff, Bound.tighterUpper_eq, Bound.tighterLower_eq]
      have hlower := (isEmpty_range_iff.mp h).tighter l'
      exact Bound.crosses_flip.mpr ((Bound.crosses_flip.mp hlower).tighter u')

/-! ## Alike intervals -/

/-- Two intervals are equal, or plainly empty both. -/
def Alike (i j : Interval) : Prop := i = j ∨ i.isEmpty = true ∧ j.isEmpty = true

theorem Alike.refl (i : Interval) : i.Alike i := .inl rfl

theorem Alike.symm (h : i.Alike j) : j.Alike i := h.imp Eq.symm And.symm

theorem Alike.trans (h : i.Alike j) (h' : j.Alike k) : i.Alike k := by
  rcases h with rfl | ⟨hi, hj⟩
  · exact h'
  · rcases h' with rfl | ⟨-, hk⟩
    · exact .inr ⟨hi, hj⟩
    · exact .inr ⟨hi, hk⟩

theorem Alike.isEmpty_eq (h : i.Alike j) : i.isEmpty = j.isEmpty := by
  rcases h with rfl | ⟨hi, hj⟩
  · rfl
  · rw [hi, hj]

theorem Alike.contains_eq (h : i.Alike j) (w : Value) : i.contains w = j.contains w := by
  rcases h with rfl | ⟨hi, hj⟩
  · rfl
  · rw [not_contains_of_isEmpty hi, not_contains_of_isEmpty hj]

theorem Alike.intersect (h : i.Alike j) (k : Interval) : (i.intersect k).Alike (j.intersect k) := by
  rcases h with rfl | ⟨hi, hj⟩
  · exact .refl _
  · exact .inr ⟨isEmpty_intersect hi k, isEmpty_intersect hj k⟩

theorem between_self (v : Value) : between (.included v) (.included v) = point v := by
  simp [between]

theorem between_eq_range (h : ∀ v, l = .included v → u ≠ .included v) : between l u = range l u := by
  unfold between
  split
  · rename_i a b
    rw [if_neg]
    rintro rfl
    exact h a rfl rfl
  · rfl

/-- A point is met like the closed range over its value. -/
theorem point_intersect (v : Value) (l u : Bound) :
    ((point v).intersect (range l u)).Alike
      (between ((Bound.included v).tighterLower l) ((Bound.included v).tighterUpper u)) := by
  rw [Bound.tighterLower_eq, Bound.tighterUpper_eq]
  by_cases hl : l.allowsAbove v = true
  · by_cases hu : u.allowsBelow v = true
    · left
      rw [Bound.tighter_included (Bound.allowsAbove_eq l v ▸ hl),
        Bound.tighter_included (Bound.allowsBelow_eq u v ▸ hu), between_self]
      simp [point, Interval.intersect, contains, hl, hu]
    · right
      refine ⟨by simp [point, Interval.intersect, contains, hu, isEmpty], ?_⟩
      rw [Bool.not_eq_true, Bound.allowsBelow_eq] at hu
      rw [isEmpty_between, isEmpty_range_iff, Bound.tighter_of_not_allows hu]
      exact (Bound.crosses_flip.mpr (Bound.crosses_of_not_allows hu)).tighter l
  · right
    refine ⟨by simp [point, Interval.intersect, contains, hl, isEmpty], ?_⟩
    rw [Bool.not_eq_true, Bound.allowsAbove_eq] at hl
    rw [isEmpty_between, isEmpty_range_iff, Bound.tighter_of_not_allows hl]
    have hcross := Bound.crosses_flip.mp (Bound.crosses_of_not_allows hl)
    exact Bound.crosses_flip.mpr (hcross.tighter u)

/-- Whether a closed range over one value is a point already or only a range, what it has in common with
another range is alike. -/
theorem between_intersect (l u l' u' : Bound) :
    ((between l u).intersect (range l' u')).Alike (between (l.tighterLower l') (u.tighterUpper u')) := by
  by_cases hone : ∃ v, l = .included v ∧ u = .included v
  · obtain ⟨v, rfl, rfl⟩ := hone
    rw [between_self]
    exact point_intersect v l' u'
  · rw [between_eq_range fun v hl hu => hone ⟨v, hl, hu⟩]
    exact .refl _

/-- Intersections in different groupings are alike. -/
theorem intersect_assoc (hi : i.Sorted) (hj : j.Sorted) (hk : k.Sorted) :
    ((i.intersect j).intersect k).Alike (i.intersect (j.intersect k)) := by
  by_cases hp : i.isPoints = true ∨ j.isPoints = true ∨ k.isPoints = true
  · have hleft : ((i.intersect j).intersect k).isPoints = true := by
      rcases hp with hp | hp | hp
      · exact isPoints_intersect (.inl (isPoints_intersect (.inl hp)))
      · exact isPoints_intersect (.inl (isPoints_intersect (.inr hp)))
      · exact isPoints_intersect (.inr hp)
    have hright : (i.intersect (j.intersect k)).isPoints = true := by
      rcases hp with hp | hp | hp
      · exact isPoints_intersect (.inl hp)
      · exact isPoints_intersect (.inr (isPoints_intersect (.inl hp)))
      · exact isPoints_intersect (.inr (isPoints_intersect (.inr hp)))
    left
    refine eq_of_isPoints (sorted_intersect (sorted_intersect hi hj) hk)
      (sorted_intersect hi (sorted_intersect hj hk)) hleft hright fun w => ?_
    simp only [contains_intersect, and_assoc]
  · obtain ⟨l, u, rfl⟩ := exists_range fun h => hp (.inl h)
    obtain ⟨l', u', rfl⟩ := exists_range fun h => hp (.inr (.inl h))
    obtain ⟨l'', u'', rfl⟩ := exists_range fun h => hp (.inr (.inr h))
    have hleft := between_intersect (l.tighterLower l') (u.tighterUpper u') l'' u''
    have hright := between_intersect (l'.tighterLower l'') (u'.tighterUpper u'') l u
    rw [Bound.tighterLower_comm _ l, Bound.tighterUpper_comm _ u, ← Bound.tighterLower_assoc,
      ← Bound.tighterUpper_assoc] at hright
    rw [intersect_comm hi (sorted_intersect hj hk)]
    exact hleft.trans hright.symm

/-! ## Families -/

/-- What an interval leaves of what was there before, if anything was. -/
def meet (present : Option Interval) (i : Interval) : Option Interval :=
  match present with
  | some p => some (p.intersect i)
  | none => some i

variable {p q : Option Interval} {family family' : List Interval}

theorem alike_rfl (p : Option Interval) : Option.Rel Alike p p := by
  cases p with
  | none => exact .none
  | some x => exact .some (.refl x)

theorem alike_trans {p q r : Option Interval} (h : Option.Rel Alike p q) (h' : Option.Rel Alike q r) :
    Option.Rel Alike p r := by
  cases h with
  | none => exact h'
  | some h =>
    cases h' with
    | some h' => exact .some (h.trans h')

theorem sorted_meet (hp : ∀ x ∈ p, x.Sorted) (hi : i.Sorted) : ∀ x ∈ meet p i, x.Sorted := by
  cases p with
  | none => simpa [meet] using hi
  | some y => simpa [meet] using sorted_intersect (hp y rfl) hi

/-- What sorted intervals have in common is sorted. -/
theorem sorted_foldl_meet {family : List Interval} (hs : ∀ i ∈ family, i.Sorted) (hp : ∀ x ∈ p, x.Sorted) :
    ∀ x ∈ family.foldl meet p, x.Sorted := by
  induction family generalizing p with
  | nil => exact hp
  | cons i family ih =>
    obtain ⟨hi, hs⟩ := List.forall_mem_cons.mp hs
    exact ih hs (sorted_meet hp hi)

theorem alike_foldl (h : Option.Rel Alike p q) (family : List Interval) :
    Option.Rel Alike (family.foldl meet p) (family.foldl meet q) := by
  induction family generalizing p q with
  | nil => exact h
  | cons i family ih =>
    apply ih
    cases h with
    | none => exact alike_rfl _
    | some h => exact .some (h.intersect i)

theorem alike_meet_meet (hp : ∀ x ∈ p, x.Sorted) (hi : i.Sorted) (hj : j.Sorted) :
    Option.Rel Alike (meet (meet p i) j) (meet (meet p j) i) := by
  cases p with
  | none => exact .some (.inl (intersect_comm hi hj))
  | some x =>
    have hx := hp x rfl
    apply Option.Rel.some
    refine (intersect_assoc hx hi hj).trans ?_
    rw [intersect_comm hi hj]
    exact (intersect_assoc hx hj hi).symm

/-- The order in which the members of a family are met makes no difference. -/
theorem alike_foldl_meet (h : family.Perm family') (hs : ∀ i ∈ family, i.Sorted)
    (hp : ∀ x ∈ p, x.Sorted) : Option.Rel Alike (family.foldl meet p) (family'.foldl meet p) := by
  induction h generalizing p with
  | nil => exact alike_rfl p
  | cons i _ ih =>
    rw [List.forall_mem_cons] at hs
    exact ih hs.2 (sorted_meet hp hs.1)
  | swap i j l =>
    simp only [List.forall_mem_cons] at hs
    exact alike_foldl (alike_meet_meet hp hs.1 hs.2.1) l
  | trans h _ ih ih' => exact alike_trans (ih hs hp) (ih' (fun i hi => hs i (h.mem_iff.mpr hi)) hp)

/-- A family of intervals in some order, grouped in some way.  Where intersecting starts from some interval,
that is one of the family. -/
inductive Grouping where
  | one (i : Interval)
  | both (first second : Grouping)

namespace Grouping

/-- The members in order. -/
def members : Grouping → List Interval
  | one i => [i]
  | both g h => g.members ++ h.members

/-- The intersection of each group. -/
def fold : Grouping → Interval
  | one i => i
  | both g h => g.fold.intersect h.fold

variable {g h : Grouping}

theorem sorted_fold (hs : ∀ i ∈ g.members, i.Sorted) : g.fold.Sorted := by
  induction g with
  | one i => exact hs i (List.mem_singleton_self i)
  | both g h ihg ihh =>
    rw [members, List.forall_mem_append] at hs
    exact sorted_intersect (ihg hs.1) (ihh hs.2)

/-- Meeting the members one by one instead of the group as a whole is alike. -/
theorem alike_foldl_some {x : Interval} (hx : x.Sorted) (hs : ∀ i ∈ g.members, i.Sorted) :
    Option.Rel Alike (g.members.foldl meet (some x)) (some (x.intersect g.fold)) := by
  induction g generalizing x with
  | one i => exact alike_rfl _
  | both g h ihg ihh =>
    rw [members, List.forall_mem_append] at hs
    have hg := sorted_fold hs.1
    rw [members, List.foldl_append]
    refine alike_trans (alike_foldl (ihg hx hs.1) _) ?_
    refine alike_trans (ihh (sorted_intersect hx hg) hs.2) ?_
    exact .some (intersect_assoc hx hg (sorted_fold hs.2))

theorem alike_fold (hs : ∀ i ∈ g.members, i.Sorted) :
    Option.Rel Alike (g.members.foldl meet none) (some g.fold) := by
  induction g with
  | one i => exact alike_rfl _
  | both g h ihg _ =>
    rw [members, List.forall_mem_append] at hs
    rw [members, List.foldl_append]
    refine alike_trans (alike_foldl (ihg hs.1) _) ?_
    exact alike_foldl_some (sorted_fold hs.1) hs.2

/-- Neither order nor grouping makes a difference. -/
theorem alike_of_perm (hs : ∀ i ∈ g.members, i.Sorted) (hp : g.members.Perm h.members) :
    g.fold.Alike h.fold := by
  have hs' : ∀ i ∈ h.members, i.Sorted := fun i hi => hs i (hp.mem_iff.mpr hi)
  have hfold := alike_foldl_meet (p := none) hp hs (by simp)
  have hg := alike_fold hs
  have hh := alike_fold hs'
  revert hg hh hfold
  generalize g.members.foldl meet none = p
  generalize h.members.foldl meet none = q
  rintro (hpq | _) (hg | _) (hh | _)
  exact hg.symm.trans (hpq.trans hh)

end Grouping

/-- Intersecting is intersecting sets: of sorted intervals, which all that are ever made are, the
intersection is sorted, holds what both hold and is the same in either order; a plainly empty interval holds
nothing; and all intersections of a family hold the same values and are plainly empty or not, in whatever
order and grouping they are made. -/
theorem intersect_laws :
    (∀ values, (ofValues values).Sorted) ∧ (∀ v, (point v).Sorted) ∧
      (∀ lower upper, (between lower upper).Sorted) ∧
      (∀ i j : Interval, i.Sorted → j.Sorted → (i.intersect j).Sorted ∧
        (∀ w, (i.intersect j).contains w = true ↔ i.contains w = true ∧ j.contains w = true) ∧
        i.intersect j = j.intersect i ∧ (i.isEmpty = true → ∀ w, i.contains w = false)) ∧
      ∀ g h : Grouping, (∀ i ∈ g.members, i.Sorted) → g.members.Perm h.members →
        (∀ w, g.fold.contains w = h.fold.contains w) ∧ g.fold.isEmpty = h.fold.isEmpty := by
  refine ⟨sorted_ofValues, sorted_point, sorted_between, ?_, ?_⟩
  · intro i j hi hj
    exact ⟨sorted_intersect hi hj, contains_intersect i j, intersect_comm hi hj, not_contains_of_isEmpty⟩
  · intro g h hs hp
    have halike := Grouping.alike_of_perm hs hp
    exact ⟨halike.contains_eq, halike.isEmpty_eq⟩

/-- Up to four, from four on and from five on; the first two meet in a point, which the third leaves out. -/
def pointFirst : Grouping :=
  .both (.both (.one (between .unbounded (.included (.int 4)))) (.one (between (.included (.int 4)) .unbounded)))
    (.one (between (.included (.int 5)) .unbounded))

/-- The same, but the second and the third are met first, which leaves two bounds that cross. -/
def rangeFirst : Grouping :=
  .both (.both (.one (between (.included (.int 5)) .unbounded)) (.one (between (.included (.int 4)) .unbounded)))
    (.one (between .unbounded (.included (.int 4))))

/-- A point and a range that are both plainly empty, and a set of points that is cut by a range. -/
theorem intersect_laws_crossing :
    (points [.int 3, .int 4]).Sorted ∧ (between (.included (.int 4)) .unbounded).Sorted ∧
      (points [.int 3, .int 4]).intersect (between (.included (.int 4)) .unbounded) = point (.int 4) ∧
      (between (.included (.int 4)) .unbounded).intersect (points [.int 3, .int 4]) = point (.int 4) ∧
      pointFirst.members.Perm rangeFirst.members ∧ (∀ i ∈ pointFirst.members, i.Sorted) ∧
      pointFirst.fold = points [] ∧ rangeFirst.fold = range (.included (.int 5)) (.included (.int 4)) ∧
      pointFirst.fold.isEmpty = rangeFirst.fold.isEmpty := by
  obtain ⟨-, -, hbetween, hpair, hfamily⟩ := intersect_laws
  have hpoints : (points [.int 3, .int 4]).Sorted := by decide
  have hrange := hbetween (.included (.int 4)) .unbounded
  have hmeet : (points [.int 3, .int 4]).intersect (between (.included (.int 4)) .unbounded) =
      point (.int 4) := by decide
  have hperm : pointFirst.members.Perm rangeFirst.members := by decide
  have hsorted : ∀ i ∈ pointFirst.members, i.Sorted := by decide
  refine ⟨hpoints, hrange, hmeet, ?_, hperm, hsorted, by decide, by decide, (hfamily _ _ hsorted hperm).2⟩
  rw [← (hpair _ _ hpoints hrange).2.2.1]
  exact hmeet

end Interval

end RowGraph
