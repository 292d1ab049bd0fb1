import RowGraph.Proofs.Columns
import RowGraph.Proofs.Intervals
import RowGraph.Plan.Expansion

/-!
# What the reads of a layout hold

A plan walks the components of its layout as long as their intervals are points.  Its reads hold the
columns whose components lie in the intervals on the way (`expand_contains`).  When all intervals have
been walked, a fitted read holds no column but with values inside all of them (`expand_fitted`); it takes
that no component comes twice, because the walk is measured by its length.
-/

namespace RowGraph.ReadPlan

open Layout (columnAt takes directionByte? typeSlice contains_columnAt)

/-- Do the values of components lie in their intervals, as far as a walk over them goes? -/
def Walks (intervals : SortedMap TypeId Interval) : List TypeId → List (Option Value) → Prop
  | key :: keys, y :: ys =>
    match intervals.get? key with
    | none => True
    | some (.range lower upper) => takes lower upper y = true
    | some (.points values) => (∃ w ∈ values, y = some w) ∧ Walks intervals keys ys
  | _, _ => True

/-- How many components a walk passes by their points. -/
def pointsAhead (intervals : SortedMap TypeId Interval) : List TypeId → Nat
  | [] => 0
  | key :: keys =>
    match intervals.get? key with
    | some (.points _) => pointsAhead intervals keys + 1
    | _ => 0

section

variable {p : ReadPlan} {end? : UInt8}

theorem read_eq_ok {used : Nat} {restriction : KeyRestriction} {last : Option Interval}
    {read : PlannedRead} (h : p.read used restriction last = .ok read) :
    ∃ slice, typeSlice p.layout p.direction restriction = .ok slice ∧
      read.slice = slice.withLimit
        (ReadLimit.forRead (p.intervals.size - used) p.limit p.hardMax p.modified) ∧
      read.fitted = (p.fitted && used == p.intervals.size && last.all Interval.hasEnd) ∧
      read.ordered = p.supportsOrder := by
  obtain ⟨slice, hslice, he⟩ := Outcome.bind_eq_ok.mp h
  obtain rfl := Except.ok.inj he
  exact ⟨slice, hslice, rfl, rfl, rfl⟩

@[simp] theorem contains_withLimit (s : Slice) (limit : Option Nat) (c : Bytes) :
    (s.withLimit limit).contains c = s.contains c := rfl

theorem map_some_append {points : List Value} {w : Value} {before : List (Option Value)}
    {y : Option Value} (hl : before.length = points.length) :
    (points ++ [w]).map some = before ++ [y] ↔ points.map some = before ∧ y = some w := by
  rw [List.map_append]
  constructor
  · intro h
    obtain ⟨hb, hw⟩ := List.append_inj h (by simpa using hl.symm)
    exact ⟨hb, (List.cons.inj hw).1.symm⟩
  · rintro ⟨rfl, rfl⟩
    rfl

section

variable {used : Nat} {points : List Value} {last : Option Interval} {before ys : List (Option Value)}
  {read : PlannedRead}

theorem prefix_iff (hl : before.length = points.length) :
    points.map some <+: before ++ ys ↔ points.map some = before := by
  constructor
  · rintro ⟨more, hmore⟩
    exact (List.append_inj hmore (by simpa using hl.symm)).1
  · rintro rfl
    exact List.prefix_append _ _

theorem read_contains (hd : directionByte? p.direction = some end?)
    (h : p.read used ⟨points, none⟩ last = .ok read) (hl : before.length = points.length)
    (tail : Bytes) :
    read.slice.contains (columnAt p.layout end? (before ++ ys) tail) = true ↔
      points.map some = before := by
  obtain ⟨slice, hslice, he, -⟩ := read_eq_ok h
  rw [he, contains_withLimit, contains_columnAt hd hslice (by simp [hl]) (by simp), prefix_iff hl]
  simp

theorem readRange_contains (hd : directionByte? p.direction = some end?) {lower upper : Bound}
    (h : p.read used ⟨points, some (lower, upper)⟩ last = .ok read)
    (hl : before.length = points.length) (y : Option Value) (tail : Bytes) :
    read.slice.contains (columnAt p.layout end? (before ++ y :: ys) tail) = true ↔
      points.map some = before ∧ takes lower upper y = true := by
  obtain ⟨slice, hslice, he, -⟩ := read_eq_ok h
  rw [he, contains_withLimit, contains_columnAt hd hslice (by simp [hl]) (by simp [hl]),
    prefix_iff hl]
  simp [← hl]

end

theorem single_eq_ok {o : Outcome PlannedRead} {reads : List PlannedRead} :
    (do return [← o] : Outcome (List PlannedRead)) = .ok reads ↔ ∃ read, o = .ok read ∧ reads = [read] := by
  rw [Outcome.bind_eq_ok]
  simp only [pure, Except.pure, Except.ok.injEq, eq_comm]

/-- The reads of a plan hold the columns whose components lie in the intervals on the way. -/
theorem expand_contains (hd : directionByte? p.direction = some end?) {keys : List TypeId}
    {used : Nat} {points : List Value} {last : Option Interval} {reads : List PlannedRead}
    (h : p.expand used points last keys = .ok reads) {before ys : List (Option Value)}
    (hl : before.length = points.length) (hys : ys.length = keys.length) (tail : Bytes) :
    (∃ read ∈ reads, read.slice.contains (columnAt p.layout end? (before ++ ys) tail) = true) ↔
      points.map some = before ∧ Walks p.intervals keys ys := by
  induction keys generalizing used points last reads before ys with
  | nil =>
    obtain ⟨read, hread, rfl⟩ := single_eq_ok.mp h
    simp [read_contains hd hread hl, Walks]
  | cons key keys ih =>
    obtain ⟨y, ys, rfl⟩ := List.exists_cons_of_length_eq_add_one hys
    unfold expand at h
    split at h
    · rename_i hi
      obtain ⟨read, hread, rfl⟩ := single_eq_ok.mp h
      simp [read_contains hd hread hl, Walks, hi]
    · rename_i lower upper hi
      obtain ⟨read, hread, rfl⟩ := single_eq_ok.mp h
      simp [readRange_contains hd hread hl, Walks, hi]
    · rename_i values hi
      obtain ⟨parts, hparts, he⟩ := Outcome.bind_eq_ok.mp h
      obtain rfl := Except.ok.inj he
      have hys' : ys.length = keys.length := by simpa using hys
      -- each value has the reads that go on from it, and the column lies in those of its own value
      have hstep (w : Value) (part : List PlannedRead)
          (hw : p.expand (used + 1) (points ++ [w]) (some (.points values)) keys = .ok part) :
          (∃ read ∈ part, read.slice.contains (columnAt p.layout end? (before ++ y :: ys) tail) = true) ↔
            (points.map some = before ∧ y = some w) ∧ Walks p.intervals keys ys := by
        rw [show before ++ y :: ys = (before ++ [y]) ++ ys by simp,
          ih hw (by simp [hl]) hys', map_some_append hl]
      simp only [List.mem_flatten, Walks, hi]
      constructor
      · rintro ⟨read, ⟨part, hpart, hread⟩, hc⟩
        obtain ⟨w, hwm, hw⟩ := (Outcome.mem_of_mapM hparts).mp hpart
        obtain ⟨⟨hb, rfl⟩, hwalk⟩ := (hstep w part hw).mp ⟨read, hread, hc⟩
        exact ⟨hb, ⟨w, hwm, rfl⟩, hwalk⟩
      · rintro ⟨hb, ⟨w, hwm, hy⟩, hwalk⟩
        obtain ⟨part, hw⟩ := Outcome.ok_of_mapM hparts hwm
        obtain ⟨read, hread, hc⟩ := (hstep w part hw).mpr ⟨⟨hb, hy⟩, hwalk⟩
        exact ⟨read, ⟨part, (Outcome.mem_of_mapM hparts).mpr ⟨w, hwm, hw⟩, hread⟩, hc⟩

theorem mem_expand_nil {used : Nat} {points : List Value} {last : Option Interval}
    {reads : List PlannedRead} (h : p.expand used points last [] = .ok reads) {read : PlannedRead}
    (hr : read ∈ reads) : p.read used ⟨points, none⟩ last = .ok read := by
  obtain ⟨read', hread, rfl⟩ := single_eq_ok.mp h
  rwa [List.mem_singleton.mp hr]

/-- A read is made at a component without an interval, at a range, or after one of the points was chosen. -/
theorem mem_expand_cons {key : TypeId} {keys : List TypeId} {used : Nat} {points : List Value}
    {last : Option Interval} {reads : List PlannedRead}
    (h : p.expand used points last (key :: keys) = .ok reads) {read : PlannedRead} (hr : read ∈ reads) :
    (p.intervals.get? key = none ∧ p.read used ⟨points, none⟩ last = .ok read) ∨
    (∃ lower upper, p.intervals.get? key = some (.range lower upper) ∧
      p.read (used + 1) ⟨points, some (lower, upper)⟩ (some (.range lower upper)) = .ok read) ∨
    ∃ values w part, p.intervals.get? key = some (.points values) ∧ w ∈ values ∧
      p.expand (used + 1) (points ++ [w]) (some (.points values)) keys = .ok part ∧ read ∈ part := by
  unfold expand at h
  split at h
  · rename_i hi
    obtain ⟨read', hread, rfl⟩ := single_eq_ok.mp h
    exact .inl ⟨hi, by rwa [List.mem_singleton.mp hr]⟩
  · rename_i lower upper hi
    obtain ⟨read', hread, rfl⟩ := single_eq_ok.mp h
    exact .inr (.inl ⟨lower, upper, hi, by rwa [List.mem_singleton.mp hr]⟩)
  · rename_i values hi
    obtain ⟨parts, hparts, he⟩ := Outcome.bind_eq_ok.mp h
    obtain rfl := Except.ok.inj he
    obtain ⟨part, hpart, hr⟩ := List.mem_flatten.mp hr
    obtain ⟨w, hw, hpart⟩ := (Outcome.mem_of_mapM hparts).mp hpart
    exact .inr (.inr ⟨values, w, part, hi, hw, hpart, hr⟩)

/-- Every read is a slice over the layout that goes on from the given points past those on the way. -/
theorem expand_mem {keys : List TypeId} {used : Nat} {points : List Value} {last : Option Interval}
    {reads : List PlannedRead} (h : p.expand used points last keys = .ok reads) {read : PlannedRead}
    (hr : read ∈ reads) :
    ∃ restriction slice remaining, typeSlice p.layout p.direction restriction = .ok slice ∧
      read.slice = slice.withLimit (ReadLimit.forRead remaining p.limit p.hardMax p.modified) ∧
      read.ordered = p.supportsOrder ∧
      restriction.points.length = points.length + pointsAhead p.intervals keys := by
  have leaf {used : Nat} {restriction : KeyRestriction} {last : Option Interval}
      (hread : p.read used restriction last = .ok read) :
      ∃ slice remaining, typeSlice p.layout p.direction restriction = .ok slice ∧
        read.slice = slice.withLimit (ReadLimit.forRead remaining p.limit p.hardMax p.modified) ∧
        read.ordered = p.supportsOrder := by
    obtain ⟨slice, hslice, he, -, hord⟩ := read_eq_ok hread
    exact ⟨slice, _, hslice, he, hord⟩
  induction keys generalizing used points last reads with
  | nil =>
    obtain ⟨slice, remaining, hslice, he, hord⟩ := leaf (mem_expand_nil h hr)
    exact ⟨_, slice, remaining, hslice, he, hord, rfl⟩
  | cons key keys ih =>
    unfold pointsAhead
    obtain ⟨hi, hread⟩ | ⟨lower, upper, hi, hread⟩ | ⟨values, w, part, hi, -, hpart, hr⟩ :=
      mem_expand_cons h hr
    · obtain ⟨slice, remaining, hslice, he, hord⟩ := leaf hread
      exact ⟨_, slice, remaining, hslice, he, hord, by simp [hi]⟩
    · obtain ⟨slice, remaining, hslice, he, hord⟩ := leaf hread
      exact ⟨_, slice, remaining, hslice, he, hord, by simp [hi]⟩
    · obtain ⟨restriction, slice, remaining, hslice, he, hord, hlen⟩ := ih hpart hr
      refine ⟨restriction, slice, remaining, hslice, he, hord, ?_⟩
      simp only [hi]
      rw [hlen, List.length_append, List.length_singleton]
      omega

/-! ## Fitted reads -/

theorem mem_of_length_eq {intervals : SortedMap TypeId Interval} {walked : List TypeId}
    (hnd : walked.Nodup) (hsub : ∀ k ∈ walked, (intervals.get? k).isSome)
    (hlen : walked.length = intervals.size) {key : TypeId} (hk : (intervals.get? key).isSome) :
    key ∈ walked := by
  refine Decidable.byContradiction fun hne => ?_
  have hle : (key :: walked).length ≤ intervals.keys.length := by
    refine List.Nodup.length_le_of_subset (List.nodup_cons.mpr ⟨hne, hnd⟩) fun k hm => ?_
    rw [SortedMap.mem_keys_iff]
    rcases List.mem_cons.mp hm with rfl | hm
    · exact hk
    · exact hsub k hm
  have hsize : intervals.keys.length = intervals.size := List.length_map ..
  rw [List.length_cons] at hle
  omega

/-- The values under the keys walked so far lie in their intervals. -/
def Walked (intervals : SortedMap TypeId Interval) (value : TypeId → Option Value)
    (keys : List TypeId) : Prop :=
  ∀ k ∈ keys, ∃ i, intervals.get? k = some i ∧ i.includes (value k) = true

theorem Walked.all {intervals : SortedMap TypeId Interval} {value : TypeId → Option Value}
    {keys : List TypeId} (h : Walked intervals value keys) (hnd : keys.Nodup)
    (hlen : keys.length = intervals.size) {key : TypeId} {i : Interval}
    (hi : intervals.get? key = some i) : i.includes (value key) = true := by
  have hm : key ∈ keys := by
    refine mem_of_length_eq hnd (fun k hk => ?_) hlen (by rw [hi]; rfl)
    obtain ⟨j, hj, -⟩ := h k hk
    rw [hj]
    rfl
  obtain ⟨j, hj, hin⟩ := h key hm
  obtain rfl := Option.some.inj (hi.symm.trans hj)
  exact hin

theorem includes_of_takes {lower upper : Bound} {y : Option Value} (h : takes lower upper y = true)
    (he : (Interval.range lower upper).hasEnd = true) :
    (Interval.range lower upper).includes y = true := by
  cases y with
  | some w => exact h
  | none =>
    have hu : upper = .unbounded := by simpa [takes] using h
    rw [hu] at he
    cases he

theorem read_fitted {points : List Value} {last : Option Interval} {read : PlannedRead}
    (h : p.read points.length ⟨points, none⟩ last = .ok read) (hf : read.fitted = true)
    {value : TypeId → Option Value} {walked : List TypeId} (hl : walked.length = points.length)
    (hnd : walked.Nodup) (hw : Walked p.intervals value walked) :
    p.fitted = true ∧ ∀ key i, p.intervals.get? key = some i → i.includes (value key) = true := by
  obtain ⟨-, -, -, he, -⟩ := read_eq_ok h
  simp only [he, Bool.and_eq_true, beq_iff_eq] at hf
  exact ⟨hf.1.1, fun key i hi => hw.all hnd (hl.trans hf.1.2) hi⟩

/-- A fitted read holds no columns but of relations inside all intervals, if no component comes
twice. -/
theorem expand_fitted (hd : directionByte? p.direction = some end?) {keys : List TypeId}
    {points : List Value} {last : Option Interval} {reads : List PlannedRead}
    (h : p.expand points.length points last keys = .ok reads) {value : TypeId → Option Value}
    {walked : List TypeId} (hl : walked.length = points.length) (hnd : (walked ++ keys).Nodup)
    (hw : Walked p.intervals value walked) {read : PlannedRead} (hr : read ∈ reads)
    (hf : read.fitted = true) {tail : Bytes}
    (hc : read.slice.contains (columnAt p.layout end? ((walked ++ keys).map value) tail) = true) :
    p.fitted = true ∧ ∀ key i, p.intervals.get? key = some i → i.includes (value key) = true := by
  induction keys generalizing points last reads walked with
  | nil => exact read_fitted (mem_expand_nil h hr) hf hl (List.nodup_append.mp hnd).1 hw
  | cons key keys ih =>
    obtain ⟨-, hread⟩ | ⟨lower, upper, hi, hread⟩ | ⟨values, w, part, hi, hwm, hpart, hr⟩ :=
      mem_expand_cons h hr
    · exact read_fitted hread hf hl (List.nodup_append.mp hnd).1 hw
    · rw [List.map_append, List.map_cons, readRange_contains hd hread (by simp [hl])] at hc
      obtain ⟨-, -, -, he, -⟩ := read_eq_ok hread
      simp only [he, Bool.and_eq_true, beq_iff_eq, Option.all_some] at hf
      have hw' : Walked p.intervals value (walked ++ [key]) := by
        intro k hk
        rcases List.mem_append.mp hk with hk | hk
        · exact hw k hk
        · obtain rfl := List.mem_singleton.mp hk
          exact ⟨_, hi, includes_of_takes hc.2 hf.2⟩
      have hnd' : (walked ++ [key]).Nodup := by
        rw [show walked ++ key :: keys = walked ++ [key] ++ keys by simp] at hnd
        exact (List.nodup_append.mp hnd).1
      exact ⟨hf.1.1, fun k i hk => hw'.all hnd' (by simpa [hl] using hf.1.2) hk⟩
    · have hsplit : walked ++ key :: keys = (walked ++ [key]) ++ keys := by simp
      rw [hsplit] at hnd hc
      have hl' : (walked ++ [key]).length = (points ++ [w]).length := by simp [hl]
      have hval : value key = some w := by
        rw [List.map_append] at hc
        have hb := ((expand_contains hd hpart (by simpa using hl') (by simp) tail).mp
          ⟨read, hr, hc⟩).1
        rw [show (walked ++ [key]).map value = walked.map value ++ [value key] by simp,
          map_some_append (by simp [hl])] at hb
        exact hb.2
      refine ih (by simpa using hpart) hl' hnd (fun k hk => ?_) hr hc
      rcases List.mem_append.mp hk with hk | hk
      · exact hw k hk
      · obtain rfl := List.mem_singleton.mp hk
        refine ⟨_, hi, ?_⟩
        rw [hval]
        simpa [Interval.includes, Interval.contains] using hwm

end

theorem takes_of_includes {lower upper : Bound} {y : Option Value}
    (h : (Interval.range lower upper).includes y = true) : takes lower upper y = true := by
  cases y with
  | some w => exact h
  | none => cases h

/-- Values inside all intervals lie in those on the way. -/
theorem walks_of_inside {intervals : SortedMap TypeId Interval} {value : TypeId → Option Value}
    (h : ∀ key i, intervals.get? key = some i → i.includes (value key) = true) (keys : List TypeId) :
    Walks intervals keys (keys.map value) := by
  induction keys with
  | nil => trivial
  | cons key keys ih =>
    rw [List.map_cons]
    unfold Walks
    split
    · trivial
    · rename_i hi
      exact takes_of_includes (h key _ hi)
    · rename_i values hi
      refine ⟨?_, ih⟩
      have hin := h key _ hi
      cases hv : value key with
      | none =>
        rw [hv] at hin
        cases hin
      | some w =>
        rw [hv] at hin
        exact ⟨w, by simpa [Interval.includes, Interval.contains] using hin, rfl⟩

end RowGraph.ReadPlan
