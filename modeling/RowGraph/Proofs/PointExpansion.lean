import RowGraph.Proofs.Expansion
import RowGraph.Proofs.RestrictedSlices

/-!
# Points divide the columns

The reads of a plan are made by choosing one point for each component on the way.  Reads for different
choices hold no column in common: where the choices part, both would go on from the same bytes with
different values, and no encoded value starts another (`expand_apart`).  Together they hold the columns
whose values lie in the intervals of the components walked (`reads_partition`), so that a relation is
read once or not at all.

Both ends at once have no bytes of an end that points could follow.  There the reads are none, or the
one slice without a restriction (`expand_bothEnds`), or the plan is refused.
-/

namespace RowGraph

/-- No column lies in both slices. -/
def Slice.Apart (a b : Slice) : Prop := ∀ c, ¬ (a.contains c = true ∧ b.contains c = true)

/-- The value of a component lies in an interval, for a range of columns. -/
def Interval.Takes : Interval → Option Value → Prop
  | .points values, y => ∃ w ∈ values, y = some w
  | .range lower upper, y => Layout.takes lower upper y = true

namespace ReadPlan

open Layout

/-- The components on the way: up to the first range, which is one of them, or up to the first component
without an interval, which is not. -/
def walkedKeys (intervals : SortedMap TypeId Interval) : List TypeId → List TypeId
  | [] => []
  | key :: keys =>
    match intervals.get? key with
    | none => []
    | some (.range _ _) => [key]
    | some (.points _) => key :: walkedKeys intervals keys

theorem walks_iff {intervals : SortedMap TypeId Interval} {value : TypeId → Option Value}
    {keys : List TypeId} :
    Walks intervals keys (keys.map value) ↔
      ∀ key ∈ walkedKeys intervals keys, ∃ i, intervals.get? key = some i ∧ i.Takes (value key) := by
  induction keys with
  | nil => simp [Walks, walkedKeys]
  | cons key keys ih =>
    rw [List.map_cons]
    unfold Walks walkedKeys
    cases hi : intervals.get? key with
    | none => simp
    | some i =>
      cases i with
      | range lower upper => simp [hi, Interval.Takes]
      | points values => simp [hi, ih, Interval.Takes]

section

variable {p : ReadPlan} {used : Nat} {points : List Value} {last : Option Interval}
  {keys : List TypeId} {reads : List PlannedRead}

/-! ## When there are reads -/

theorem single_eq_error {o : Outcome PlannedRead} {e : Failure} :
    (do return [← o] : Outcome (List PlannedRead)) = .error e ↔ o = .error e := by
  rw [Outcome.bind_eq_error]
  simp [pure, Except.pure]

theorem read_error {restriction : KeyRestriction} {e : Failure}
    (h : p.read used restriction last = .error e) :
    p.direction = .both ∧ e = .invalid "sort-key restrictions need a single direction" := by
  rcases Outcome.bind_eq_error.mp h with h | ⟨s, -, h⟩
  · exact typeSlice_error h
  · cases h

theorem expand_error {e : Failure} (h : p.expand used points last keys = .error e) :
    p.direction = .both ∧ e = .invalid "sort-key restrictions need a single direction" := by
  induction keys generalizing used points last with
  | nil => exact read_error (single_eq_error.mp h)
  | cons key keys ih =>
    unfold expand at h
    split at h
    · exact read_error (single_eq_error.mp h)
    · exact read_error (single_eq_error.mp h)
    · rcases Outcome.bind_eq_error.mp h with h | ⟨parts, -, h⟩
      · obtain ⟨w, -, hw⟩ := Outcome.error_of_mapM h
        exact ih hw
      · cases h

/-! ## Reads of different points -/

theorem stem_of_read {end? : UInt8} (hd : directionByte? p.direction = some end?)
    {range : Option (Bound × Bound)} {read : PlannedRead} (h : p.read used ⟨points, range⟩ last = .ok read)
    {c : Bytes} (hc : read.slice.contains c = true) : sliceStem p.layout end? points <+: c := by
  obtain ⟨slice, hslice, he, -⟩ := read_eq_ok h
  rw [he, contains_withLimit] at hc
  exact stem_of_contains hd hslice hc

/-- Whatever a read holds starts with the points that it goes on from. -/
theorem stem_of_mem_expand {end? : UInt8} (hd : directionByte? p.direction = some end?)
    (h : p.expand used points last keys = .ok reads) {read : PlannedRead} (hr : read ∈ reads) {c : Bytes}
    (hc : read.slice.contains c = true) : sliceStem p.layout end? points <+: c := by
  induction keys generalizing used points last reads with
  | nil => exact stem_of_read hd (mem_expand_nil h hr) hc
  | cons key keys ih =>
    obtain ⟨-, hread⟩ | ⟨lower, upper, -, hread⟩ | ⟨values, w, part, -, -, hw, hr⟩ := mem_expand_cons h hr
    · exact stem_of_read hd hread hc
    · exact stem_of_read hd hread hc
    · have hlonger := ih hw hr
      rw [sliceStem_append] at hlonger
      exact (List.prefix_append _ _).trans hlonger

/-- The reads that one plan makes at one end have no column in common. -/
theorem expand_apart {end? : UInt8} (hd : directionByte? p.direction = some end?)
    (hpoints : ∀ key values, p.intervals.get? key = some (.points values) → values.Nodup)
    (h : p.expand used points last keys = .ok reads) :
    reads.Pairwise fun a b => a.slice.Apart b.slice := by
  induction keys generalizing used points last reads with
  | nil =>
    obtain ⟨read, -, rfl⟩ := single_eq_ok.mp h
    exact List.pairwise_singleton ..
  | cons key keys ih =>
    unfold expand at h
    split at h
    · obtain ⟨read, -, rfl⟩ := single_eq_ok.mp h
      exact List.pairwise_singleton ..
    · obtain ⟨read, -, rfl⟩ := single_eq_ok.mp h
      exact List.pairwise_singleton ..
    · rename_i values hi
      obtain ⟨parts, hparts, he⟩ := Outcome.bind_eq_ok.mp h
      obtain rfl := Except.ok.inj he
      refine List.pairwise_flatten.mpr ⟨fun part hpart => ?_, ?_⟩
      · obtain ⟨w, -, hw⟩ := (Outcome.mem_of_mapM hparts).mp hpart
        exact ih hw
      · refine Outcome.pairwise_of_mapM hparts (hpoints key values hi) fun w w' hne part part' hw hw' => ?_
        rintro a ha b hb c ⟨hca, hcb⟩
        -- both parts go on from the points so far, with different values
        have hstem := stem_of_mem_expand hd hw ha hca
        have hstem' := stem_of_mem_expand hd hw' hb hcb
        rw [sliceStem_append] at hstem hstem'
        obtain ⟨more, rfl⟩ := hstem
        obtain ⟨more', hmore⟩ := hstem'
        rw [List.append_assoc, List.append_assoc] at hmore
        obtain ⟨hval, -⟩ := Key.encode_append_inj (List.append_cancel_left hmore)
        exact hne (Option.some.inj hval).symm

/-! ## Both ends at once -/

/-- The read is the slice over all columns of the layout. -/
def IsWhole (p : ReadPlan) (read : PlannedRead) : Prop :=
  ∃ slice, typeSlice p.layout .both .none = .ok slice ∧
    ∀ c, read.slice.contains c = slice.contains c

theorem read_bothEnds (hd : p.direction = .both) {restriction : KeyRestriction} {read : PlannedRead}
    (h : p.read used restriction last = .ok read) : restriction = .none ∧ p.IsWhole read := by
  obtain ⟨slice, hslice, hwith, -⟩ := read_eq_ok h
  rw [hd] at hslice
  obtain ⟨hpoints, hrange⟩ := typeSlice_bothEnds hslice
  obtain rfl : restriction = .none := by
    cases restriction
    cases hpoints
    cases hrange
    rfl
  exact ⟨rfl, slice, hslice, fun c => by rw [hwith, contains_withLimit]⟩

/-- Of a plan for both ends there is nothing to read, as some component has no points to choose from; or
there is one read, for all columns of the layout, as its first component is free. -/
theorem expand_bothEnds (hd : p.direction = .both) (h : p.expand used points last keys = .ok reads) :
    (reads = [] ∧ ∀ ys, ys.length = keys.length → ¬ Walks p.intervals keys ys) ∨
      points = [] ∧ (∃ read, reads = [read] ∧ p.IsWhole read) ∧ ∀ ys, Walks p.intervals keys ys := by
  induction keys generalizing used points last reads with
  | nil =>
    obtain ⟨read, hread, rfl⟩ := single_eq_ok.mp h
    obtain ⟨hnone, hwhole⟩ := read_bothEnds hd hread
    exact .inr ⟨congrArg KeyRestriction.points hnone, ⟨read, rfl, hwhole⟩, fun ys => by simp [Walks]⟩
  | cons key keys ih =>
    unfold expand at h
    split at h
    · rename_i hi
      obtain ⟨read, hread, rfl⟩ := single_eq_ok.mp h
      obtain ⟨hnone, hwhole⟩ := read_bothEnds hd hread
      refine .inr ⟨congrArg KeyRestriction.points hnone, ⟨read, rfl, hwhole⟩, fun ys => ?_⟩
      cases ys <;> simp [Walks, hi]
    · obtain ⟨read, hread, rfl⟩ := single_eq_ok.mp h
      cases congrArg KeyRestriction.range (read_bothEnds hd hread).1
    · rename_i values hi
      obtain ⟨parts, hparts, he⟩ := Outcome.bind_eq_ok.mp h
      obtain rfl := Except.ok.inj he
      -- a choice of a point leaves nothing to read, whatever the point
      have hpart (w : Value) (part : List PlannedRead)
          (hw : p.expand (used + 1) (points ++ [w]) (some (.points values)) keys = .ok part) :
          part = [] ∧ ∀ ys, ys.length = keys.length → ¬ Walks p.intervals keys ys :=
        (ih hw).resolve_right fun h => by simp at h
      refine .inl ⟨List.flatten_eq_nil_iff.mpr fun part hmem => ?_, fun ys hys hwalk => ?_⟩
      · obtain ⟨w, -, hw⟩ := (Outcome.mem_of_mapM hparts).mp hmem
        exact (hpart w part hw).1
      · obtain ⟨y, ys, rfl⟩ := List.exists_cons_of_length_eq_add_one hys
        simp only [Walks, hi] at hwalk
        obtain ⟨⟨w, hw, -⟩, hrest⟩ := hwalk
        obtain ⟨part, hpart'⟩ := Outcome.ok_of_mapM hparts hw
        exact (hpart w part hpart').2 ys (Nat.succ.inj hys) hrest

end

/-! ## All reads of a plan -/

section

variable {p : ReadPlan} {reads : List PlannedRead}

theorem reads_apart
    (hpoints : ∀ key values, p.intervals.get? key = some (.points values) → values.Nodup)
    (h : p.reads = .ok reads) : reads.Pairwise fun a b => a.slice.Apart b.slice := by
  cases hd : directionByte? p.direction with
  | some end? => exact expand_apart hd hpoints h
  | none =>
    have hboth : p.direction = .both := by
      cases hp : p.direction <;> simp [hp, directionByte?] at hd ⊢
    obtain ⟨rfl, -⟩ | ⟨-, ⟨read, rfl, -⟩, -⟩ := expand_bothEnds hboth h
    · exact .nil
    · exact List.pairwise_singleton ..

variable {base : RelationType} {r : Relation} {v : VertexId} {d : Direction} {c : Bytes}

theorem reads_contain (h : p.reads = .ok reads) (hcovers : p.direction.covers d = true)
    (hkind : p.layout.kind = base.kind) (hc : column p.layout base r d v = .ok c) :
    (∃ read ∈ reads, read.slice.contains c = true) ↔
      Walks p.intervals (Candidate.extendedSortKey p.layout p.direction)
        (componentValues p.layout p.direction r v) := by
  obtain ⟨end?, tail, hd, rfl⟩ := column_eq hkind hc
  by_cases hboth : p.direction = .both
  · obtain ⟨rfl, hno⟩ | ⟨-, ⟨read, rfl, slice, hslice, hsame⟩, hall⟩ := expand_bothEnds hboth h
    · have hwalk := hno (componentValues p.layout p.direction r v) (List.length_map ..)
      simp [hwalk]
    · have hstem : stemSlice (typeStem p.layout) = .ok slice := hslice
      simp [hall, hsame, contains_stemSlice hstem, typeStem_prefix_iff]
  · have hdir : p.direction = d := by
      simpa [Direction.covers, hboth] using hcovers
    rw [← hdir] at hd ⊢
    have hiff : (∃ read ∈ reads, read.slice.contains (columnAt p.layout end?
          ([] ++ componentValues p.layout p.direction r v) tail) = true) ↔
        ([] : List Value).map some = [] ∧ Walks p.intervals
          (Candidate.extendedSortKey p.layout p.direction) (componentValues p.layout p.direction r v) :=
      expand_contains hd h rfl (List.length_map ..) tail
    simpa using hiff

end

/-- The reads of a plan divide the columns of its layout among them.  There are reads for every plan at
one end, and at both ends a plan is refused only because it restricts components.  No two reads hold a
column in common, and one of them holds the column of a relation just if the value of every component on
the way lies in its interval. -/
theorem reads_partition (p : ReadPlan)
    (hpoints : ∀ key values, p.intervals.get? key = some (.points values) → values.Nodup) :
    ((∃ reads, p.reads = .ok reads) ∨ p.direction = .both ∧
      p.reads = .error (.invalid "sort-key restrictions need a single direction")) ∧
    ∀ reads, p.reads = .ok reads →
      (reads.Pairwise fun a b => a.slice.Apart b.slice) ∧
      ∀ base r v d c, p.direction.covers d = true → p.layout.kind = base.kind →
        column p.layout base r d v = .ok c →
          ((∃ read ∈ reads, read.slice.contains c = true) ↔
            ∀ key ∈ walkedKeys p.intervals (Candidate.extendedSortKey p.layout p.direction),
              ∃ i, p.intervals.get? key = some i ∧ i.Takes (r.valueOf key v)) := by
  refine ⟨?_, fun reads h => ⟨reads_apart hpoints h, fun base r v d c hcovers hkind hc => ?_⟩⟩
  · cases h : p.reads with
    | ok reads => exact .inl ⟨reads, rfl⟩
    | error e =>
      obtain ⟨hboth, rfl⟩ := expand_error h
      exact .inr ⟨hboth, rfl⟩
  · rw [reads_contain h hcovers hkind hc]
    exact walks_iff

/-- Who owned what at time 4 or 5, for things up to vertex 9. -/
def ownedAtFourOrFive : ReadPlan where
  layout := Layout.Owned.owns
  direction := .out
  intervals := (SortedMap.empty.put ⟨1024⟩ (.points [.int 4, .int 5])).put ImplicitKey.adjacent.typeId
    (.range .unbounded (.included (.vertex ⟨9⟩)))
  limit := none
  fitted := true
  supportsOrder := false
  hardMax := 300000
  modified := false

/-- There are two reads, one for each time, and one of them holds the ownership since time 5. -/
theorem reads_partition_owned :
    (∀ key values, ownedAtFourOrFive.intervals.get? key = some (.points values) → values.Nodup) ∧
      ∃ reads, ownedAtFourOrFive.reads = .ok reads ∧ reads.length = 2 ∧
        (reads.Pairwise fun a b => a.slice.Apart b.slice) ∧
        ∃ c, column Layout.Owned.owns Layout.Owned.owns (Layout.Owned.owning ⟨7⟩) .out ⟨1⟩ = .ok c ∧
          ∃ read ∈ reads, read.slice.contains c = true := by
  have hpoints : ∀ key values,
      ownedAtFourOrFive.intervals.get? key = some (.points values) → values.Nodup := by
    intro key values h
    unfold ownedAtFourOrFive at h
    rcases SortedMap.get?_put_cases h with ⟨-, h⟩ | h
    · cases h
    rcases SortedMap.get?_put_cases h with ⟨-, h⟩ | h
    · obtain rfl := Interval.points.inj h
      decide
    · cases h
  have hreads := Outcome.eq_ok_getD (x := ownedAtFourOrFive.reads) (by decide +kernel) []
  have hc := Outcome.eq_ok_getD (x := column Layout.Owned.owns Layout.Owned.owns (Layout.Owned.owning ⟨7⟩) .out ⟨1⟩)
    (by decide +kernel) []
  obtain ⟨hapart, hiff⟩ := (reads_partition ownedAtFourOrFive hpoints).2 _ hreads
  refine ⟨hpoints, _, hreads, by decide +kernel, hapart, _, hc, ?_⟩
  rw [hiff Layout.Owned.owns _ ⟨1⟩ .out _ (by decide) rfl hc]
  have hwalked : walkedKeys ownedAtFourOrFive.intervals
      (Candidate.extendedSortKey ownedAtFourOrFive.layout ownedAtFourOrFive.direction) =
        [⟨1024⟩, ImplicitKey.adjacent.typeId] := by decide +kernel
  rw [hwalked]
  rintro key hkey
  rcases List.mem_cons.mp hkey with rfl | hkey
  · exact ⟨.points [.int 4, .int 5], rfl, .int 5, by decide, by decide +kernel⟩
  · obtain rfl := List.mem_singleton.mp hkey
    refine ⟨.range .unbounded (.included (.vertex ⟨9⟩)), rfl, ?_⟩
    show takes .unbounded (.included (.vertex ⟨9⟩)) _ = true
    decide +kernel

end ReadPlan

end RowGraph
