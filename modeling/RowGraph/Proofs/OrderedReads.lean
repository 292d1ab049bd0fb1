import RowGraph.Proofs.ReadOrder
import RowGraph.Proofs.SharedColumns

/-!
# What ordered reads promise

A read of a layout at an end that is called ordered holds columns whose order is that of the query: the
smaller of two columns never belongs to the relation that comes later, relations under one column come
at once, and where a value is absent the bytes agree with the order, in which it is the last of all
ascending and the first descending (`compare_of_ordered`).  This is so for every layout, indexes
included, whatever points and ranges the intervals fix.
-/

namespace RowGraph

/-! ## Absent values -/

namespace ResultOrder

variable {o : ResultOrder} {v : VertexId} {a b : Relation} {before after : List TypeId} {key : TypeId}

/-- Of relations that are the same up to some key, the one without a value for it comes after the other
ascending and before it descending. -/
theorem cmp_of_absent (hkeys : o.keys = before ++ key :: after)
    (hsame : ∀ k ∈ before, a.valueOf k v = b.valueOf k v) (ha : a.valueOf key v = Option.none)
    (hb : (b.valueOf key v).isSome = true) : o.cmp v a b = (o.direction.getD .asc).apply .gt := by
  obtain ⟨w, hw⟩ := Option.isSome_iff_exists.mp hb
  have hkey : Value.cmpAbsentLast (a.valueOf key v) (b.valueOf key v) = .gt := by
    rw [ha, hw]
    rfl
  rw [cmp, hkeys, cmpAscending_append, cmpAscending_eq_of_same hsame, Ordering.eq_then, cmpAscending,
    hkey, Ordering.gt_then]

end ResultOrder

/-! ## Two columns of an ordered read -/

namespace Query

variable {s : Setting} {q : Query} {keys : KeyIntervals} {t layout base : RelationType} {d : Direction}
  {score : CandidateScore} {reads : List PlannedRead} {read : PlannedRead} {v : VertexId} {a b : Relation}
  {c c' : Bytes}

/-- What the columns of two relations of the base type say in an ordered read of the layout that was
selected, if the order of the query is by declared keys. -/
theorem compare_of_ordered (horder : q.order.Declared)
    (hsel : Candidate.select s.schema t d keys.intervals q.order = .ok (layout, score))
    (hreads : readsAtEnd s q keys t d = .ok reads) (hr : read ∈ reads) (hord : read.ordered = true)
    (hbase : layout = base ∨ layout.IndexOver base)
    (ha : Layout.column layout base a d v = .ok c) (hb : Layout.column layout base b d v = .ok c')
    (hca : read.slice.contains c = true) (hcb : read.slice.contains c' = true) :
    (compare c c' = .lt → q.order.cmp v a b ≠ .gt) ∧ (c = c' → q.order.cmp v a b = .eq) ∧
      ∀ before key after, q.order.keys = before ++ key :: after →
        (∀ k ∈ before, a.valueOf k v = b.valueOf k v) → a.valueOf key v = none →
        (b.valueOf key v).isSome = true →
          (q.order.direction = some .asc → compare c c' = .gt) ∧
          (q.order.direction = some .desc → compare c c' = .lt) := by
  have hkind : layout.kind = base.kind := by
    rcases hbase with rfl | hover
    · rfl
    · exact hover.kind
  have hcmp : q.order.cmp v a b = .eq ∨ q.order.cmp v a b = compare c c' :=
    readsAtEnd_cmp horder hsel hreads hr hord (Layout.column_eq hkind ha) (Layout.column_eq hkind hb) hca
      hcb
  refine ⟨fun hlt hgt => ?_, fun heq => ?_, fun before key after hkeys hsame hnone hsome => ?_⟩
  · rcases hcmp with h | h
    · rw [h] at hgt
      cases hgt
    · rw [h, hlt] at hgt
      cases hgt
  · rcases hcmp with h | h
    · exact h
    · rw [h, heq]
      exact Std.ReflCmp.compare_self
  · have habsent := ResultOrder.cmp_of_absent hkeys hsame hnone hsome
    constructor
    all_goals
      intro hdir
      rw [hdir] at habsent
      rcases hcmp with h | h
      · rw [h] at habsent
        cases habsent
      · rw [← h]
        exact habsent

end Query

/-! ## The latest purchases -/

namespace Owned

open Layout.Owned (schema owning)

/-- What vertex 1 owns, the latest first. -/
def latest : Query :=
  .build schema ⟨100, false, false⟩ [.types ["owns"], .direction .out, .orderBy "time" .desc]

/-- The time is three or later. -/
def sinceThree : KeyIntervals := ⟨.ofList [(⟨1024⟩, .range (.included (.int 3)) .unbounded)], true⟩

/-- The type of the edges, and the index over it. -/
def owns : RelationType := (schema.named? "owns").getD default

def byTime : RelationType := (schema.named? "latest").getD default

/-- Vertex 1 owns vertex 2, since nobody knows when. -/
def undated : Relation := Relation.edge ⟨8⟩ ⟨1025⟩ ⟨1⟩ ⟨2⟩

def setting : Query.Setting := ⟨schema, 100, false⟩

def selected : (Candidate.select setting.schema owns .out sinceThree.intervals latest.order).Given :=
  Outcome.given (by decide +kernel)

def reads : (Query.readsAtEnd setting latest sinceThree owns .out).Given :=
  Outcome.given (by decide +kernel)

/-- The columns of two purchases in the index. -/
def undatedColumn : (Layout.column byTime owns undated .out ⟨1⟩).Given :=
  Outcome.given (by decide +kernel)

def datedColumn : (Layout.column byTime owns (owning ⟨7⟩) .out ⟨1⟩).Given :=
  Outcome.given (by decide +kernel)

end Owned

/-- Read through the index, a purchase whose time is not known comes first. -/
theorem Query.compare_of_ordered_owned :
    ∃ read ∈ Owned.reads.1, read.ordered = true ∧
      read.slice.contains Owned.undatedColumn.1 = true ∧
      read.slice.contains Owned.datedColumn.1 = true ∧
      compare Owned.undatedColumn.1 Owned.datedColumn.1 = .lt := by
  have hlayout : Owned.selected.1.1 = Owned.byTime := by decide +kernel
  have hsel := Owned.selected.2
  generalize Owned.selected.1 = selected at hsel hlayout
  obtain ⟨layout, score⟩ := selected
  obtain rfl : layout = Owned.byTime := hlayout
  have hdeclared : Owned.latest.order.Declared :=
    (by decide +kernel : ∀ key ∈ Owned.latest.order.keys, ImplicitKey.ofTypeId? key = none)
  have hover : Owned.byTime.IndexOver Owned.owns :=
    ⟨by decide +kernel, by decide +kernel, by decide +kernel, fun d => by cases d <;> decide +kernel⟩
  obtain ⟨read, hr, hord, hca, hcb⟩ : ∃ read ∈ Owned.reads.1, read.ordered = true ∧
      read.slice.contains Owned.undatedColumn.1 = true ∧
      read.slice.contains Owned.datedColumn.1 = true := by
    decide +kernel
  obtain ⟨-, -, habsent⟩ := Query.compare_of_ordered hdeclared hsel Owned.reads.2 hr hord (.inr hover)
    Owned.undatedColumn.2 Owned.datedColumn.2 hca hcb
  exact ⟨read, hr, hord, hca, hcb,
    (habsent [] ⟨1024⟩ [] (by decide +kernel) (by simp) (by decide +kernel) (by decide +kernel)).2
      (by decide +kernel)⟩

end RowGraph
