import RowGraph.Proofs.CompiledReads
import RowGraph.Proofs.InflatedLimits

/-!
# Limits of compiled reads

Whatever is inflated, doubled or capped on the way, a read of a compiled query is limited exactly if
the query is, and never below the limit of the query (`compile_limits`).  Without a limit nothing is
inflated, so that neither the greatest limit nor uncommitted changes matter (`compile_unlimited`).
-/

namespace RowGraph

namespace ReadLimit

theorem cut_sublist {α : Type} (limit : Nat) (results : List α) : (cut limit results).Sublist results := by
  unfold cut
  split
  · exact List.Sublist.refl _
  · exact List.take_sublist ..

theorem length_cut {α : Type} (limit : Nat) (results : List α) :
    (cut limit results).length = if limit = most then results.length else min limit results.length := by
  unfold cut
  split
  · rfl
  · exact List.length_take

theorem le_doubled (n : Nat) : n ≤ doubled n := by
  unfold doubled
  split <;> omega

theorem le_forRead {remaining b hardMax : Nat} {modified : Bool} {l : Nat}
    (h : forRead remaining (some b) hardMax modified = some l) : b ≤ l := by
  obtain rfl := Option.some.inj h
  exact le_readLimit ..

/-- A limit that is below the greatest read grows at the next attempt. -/
theorem lt_next {limit hardMax : Nat} (hl : 1 ≤ limit) (h : limit < hardMax) (hm : hardMax ≤ most) :
    limit < next limit hardMax := by
  unfold next times
  omega

end ReadLimit

/-- The reads of the query are limited just if it is, and not below its limit. -/
def CompiledQuery.ReadsEnough (q : CompiledQuery) : Prop :=
  ∀ read ∈ q.reads, (read.slice.limit = none ↔ q.limit = ReadLimit.most) ∧
    ∀ l, read.slice.limit = some l → q.limit ≤ l

theorem CompiledQuery.ReadsEnough.of_unlimited {q : CompiledQuery} (hq : q.limit = ReadLimit.most)
    (hl : ∀ read ∈ q.reads, read.slice.limit = none) : q.ReadsEnough :=
  fun read hr => ⟨by simp [hq, hl read hr], by simp [hl read hr]⟩

/-- Without a limit neither the greatest limit nor uncommitted changes matter for the reads of a plan. -/
theorem ReadPlan.expand_unlimited {p p' : ReadPlan} (hlimit : p.limit = none)
    (h : p' = { p with hardMax := p'.hardMax, modified := p'.modified }) (used : Nat)
    (points : List Value) (last : Option Interval) (components : List TypeId) :
    p'.expand used points last components = p.expand used points last components := by
  have hread (used : Nat) (restriction : KeyRestriction) (last : Option Interval) :
      p'.read used restriction last = p.read used restriction last := by
    rw [h]
    unfold ReadPlan.read
    rw [hlimit]
    rfl
  have hintervals : p'.intervals = p.intervals := by rw [h]
  induction components generalizing used points last with
  | nil => simp only [ReadPlan.expand, hread]
  | cons key rest ih => simp only [ReadPlan.expand, hread, hintervals, ih]

namespace Query

variable {s : Setting} {q : Query} {keys : KeyIntervals} {t : RelationType} {d : Direction}
  {reads : List PlannedRead} {read : PlannedRead} {category : Category} {compiled : CompiledQuery}

/-- The limit of a read of a query: there is one if the query has one, and it is not smaller. -/
def Covers (q : Query) (limit : Option Nat) : Prop :=
  (limit = none ↔ q.limit? = none) ∧ ∀ l, limit = some l → q.limit ≤ l

theorem covers_limit? (q : Query) : q.Covers q.limit? := by
  refine ⟨Iff.rfl, fun l hl => ?_⟩
  unfold limit? at hl
  split at hl
  · cases hl
  · exact Nat.le_of_eq (Option.some.inj hl)

theorem covers_forRead {base : Option Nat} (h : q.Covers base) (remaining hardMax : Nat)
    (modified : Bool) : q.Covers (ReadLimit.forRead remaining base hardMax modified) := by
  refine ⟨ReadLimit.forRead_eq_none.trans h.1, fun l hl => ?_⟩
  cases base with
  | none => cases hl
  | some b => exact Nat.le_trans (h.2 b rfl) (ReadLimit.le_forRead hl)

theorem readsAtEnd_limits (h : readsAtEnd s q keys t d = .ok reads) (hr : read ∈ reads) :
    q.Covers read.slice.limit := by
  obtain ⟨layout, score, -, hreads⟩ := readsAtEnd_eq_ok h
  obtain ⟨restriction, slice, remaining, -, he, -⟩ := ReadPlan.expand_mem hreads hr
  rw [he]
  exact covers_forRead q.covers_limit? ..

theorem readsOfType_limits (h : readsOfType s q keys t d = .ok reads) (hr : read ∈ reads) :
    q.Covers read.slice.limit := by
  rcases readsOfType_cases h with ⟨-, -, -, slice, -, rfl⟩ | ⟨-, hparts⟩
  · obtain rfl := List.mem_singleton.mp hr
    exact q.covers_limit?
  · obtain ⟨e, -, -, part, hpart, hread⟩ := hparts read hr
    exact readsAtEnd_limits hpart hread

theorem untypedRead_eq_ok {conditions : List Condition}
    (h : untypedRead s q d category conditions = .ok read) :
    ∃ slice, Layout.categorySlice category q.system = .ok slice ∧
      (∃ limit, q.Covers limit ∧ read.slice = slice.withLimit limit) ∧
      read.fitted = ((d == .both || (category == .property && d == .out)) && conditions.isEmpty &&
        q.adjacent.isNone) ∧
      read.ordered = q.order.isEmpty := by
  obtain ⟨slice, hslice, he⟩ := Outcome.bind_eq_ok.mp h
  obtain rfl := Except.ok.inj he
  refine ⟨slice, hslice, ⟨_, covers_forRead ?_ .., rfl⟩, rfl, rfl⟩
  split
  · refine ⟨by simp, fun l hl => ?_⟩
    obtain ⟨b, hb, rfl⟩ := Option.map_eq_some_iff.mp hl
    exact Nat.le_trans (q.covers_limit?.2 b hb) (ReadLimit.le_doubled b)
  · exact q.covers_limit?

/-- A compiled query with reads keeps the limit and the order of the query, and its reads are limited
as the query is, but not below. -/
theorem compile_limits (h : q.compile s category = .ok compiled) (hne : compiled.isEmpty = false) :
    compiled.limit = q.limit ∧ compiled.order = q.order ∧
      ∀ read ∈ compiled.reads, q.Covers read.slice.limit := by
  rcases compile_eq_ok h with ⟨rfl, -⟩ | ⟨d, conditions, -, -, hplan⟩
  · cases hne
  · rcases plan_eq_ok hplan with ⟨-, only, honly, rfl⟩ | ⟨-, -, rfl⟩ | ⟨-, types, reads, hreads, he⟩
    · refine ⟨rfl, rfl, fun read hr => ?_⟩
      obtain rfl := List.mem_singleton.mp hr
      obtain ⟨slice, -, ⟨limit, hcov, hslice⟩, -⟩ := untypedRead_eq_ok honly
      rw [hslice]
      exact hcov
    · cases hne
    · rcases he with ⟨-, rfl⟩ | ⟨-, rfl⟩
      · cases hne
      · refine ⟨rfl, rfl, fun read hr => ?_⟩
        obtain ⟨name, -, t, _, _, e, part, -, -, -, hpart, hread⟩ := readsOfTypes_mem hreads hr
        exact readsOfType_limits hpart hread

theorem compile_readsEnough (h : q.compile s category = .ok compiled) (hne : compiled.isEmpty = false) :
    compiled.ReadsEnough := by
  obtain ⟨hlimit, -, hcovers⟩ := compile_limits h hne
  intro read hr
  rw [hlimit]
  refine ⟨(hcovers read hr).1.trans ?_, (hcovers read hr).2⟩
  unfold limit?
  split <;> simp_all

/-- A query without reads is compiled to the empty one. -/
theorem eq_empty (h : q.compile s category = .ok compiled) (he : compiled.isEmpty = true) :
    compiled = .empty := by
  rcases compile_eq_ok h with ⟨rfl, -⟩ | ⟨d, conditions, -, -, hplan⟩
  · rfl
  · rcases plan_eq_ok hplan with ⟨-, only, -, rfl⟩ | ⟨-, -, rfl⟩ | ⟨-, types, reads, -, hempty⟩
    · cases he
    · rfl
    · rcases hempty with ⟨-, rfl⟩ | ⟨hne, rfl⟩
      · rfl
      · exact absurd (List.isEmpty_iff.mp he) hne

/-- A compiled query with reads wants at least one result. -/
theorem limit_ne_zero (h : q.compile s category = .ok compiled) (hne : compiled.isEmpty = false) :
    q.limit ≠ 0 := by
  intro hz
  have he : compiled = .empty := by
    cases hq : q.error with
    | some reason => simp [compile, hq, throw, throwThe, MonadExceptOf.throw, bind, Except.bind] at h
    | none =>
      simp only [compile, hq, Outcome.guard_eq_ok, hz, if_true] at h
      exact (Except.ok.inj h.2).symm
  rw [he] at hne
  cases hne

/-! ## Without a limit -/

variable {s' : Setting}

theorem readsAtEnd_unlimited (hs : s'.schema = s.schema) (hlimit : q.limit? = none) :
    readsAtEnd s' q keys t d = readsAtEnd s q keys t d := by
  unfold readsAtEnd
  rw [hs]
  refine congrArg _ (funext fun ⟨layout, score⟩ => ?_)
  exact ReadPlan.expand_unlimited hlimit rfl ..

theorem readsOfTypes_unlimited (hs : s'.schema = s.schema) (hlimit : q.limit? = none)
    (names : List String) :
    readsOfTypes s' q keys d category names = readsOfTypes s q keys d category names := by
  have htype (t : RelationType) (e : Direction) :
      readsOfType s' q keys t e = readsOfType s q keys t e := by
    unfold readsOfType
    rw [show readsAtEnd s' q keys t = readsAtEnd s q keys t from
      funext fun _ => readsAtEnd_unlimited hs hlimit]
  induction names generalizing category with
  | nil => rfl
  | cons name names ih => simp only [readsOfTypes, hs, htype, ih]

/-- Without a limit a query compiles to the same whatever the greatest limit is, with or without
uncommitted changes. -/
theorem compile_unlimited (hs : s'.schema = s.schema) (hlimit : q.limit = ReadLimit.most)
    (category : Category) : q.compile s' category = q.compile s category := by
  have hnone : q.limit? = none := by rw [limit?, if_pos hlimit]
  have huntyped (d : Direction) (conditions : List Condition) :
      untypedRead s' q d category conditions = untypedRead s q d category conditions := by
    unfold untypedRead
    simp only [hnone, Option.map_none, ite_self]
    rfl
  unfold compile plan
  simp only [hs, huntyped, readsOfTypes_unlimited hs hnone]

end Query

end RowGraph
