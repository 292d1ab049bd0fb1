import RowGraph.Proofs.ConsistentTables
import RowGraph.Proofs.PointExpansion
import RowGraph.Proofs.ReadLimits

/-!
# What compiling may refuse

Compiling a query may fail because of what was asked: a bad call, a value or a type that does not fit.
The other failures that its parts know of cannot come up (`compile_refuses`).  A type is read only at ends
where it is kept, so that it can answer there itself (`isEligible_of_admitted`); the indexes of a type are
types of the schema; there is a slice for every restriction at one end, and both ends at once are read
without one.
-/

namespace RowGraph

variable {α β : Type}

/-- The failure is about what was asked. -/
def Failure.IsRefusal : Failure → Prop
  | .invalidInput _ => True
  | .unsupported _ => True
  | .categoryMismatch .. => True
  | .invalid reason => reason = "adjacent vertex constraints need an edge query"
  | _ => False

/-- The failure is about what compiling does itself: there is no layout to read, a number or a key leads
nowhere, or both ends are to be read with a restriction. -/
def Failure.IsInternal : Failure → Prop
  | .unsatisfiable _ => True
  | .notFound _ => True
  | .corruption _ => True
  | .invalid reason => reason = "sort-key restrictions need a single direction"
  | _ => False

theorem Failure.IsRefusal.not_internal {e : Failure} (h : e.IsRefusal) : ¬ e.IsInternal := by
  cases e with
  | invalid reason =>
    obtain rfl : reason = "adjacent vertex constraints need an edge query" := h
    show ¬ "adjacent vertex constraints need an edge query" = "sort-key restrictions need a single direction"
    decide
  | unsatisfiable _ | notFound _ | corruption _ => exact h.elim
  | _ => exact id

/-- The only failures of the outcome are refusals. -/
def Outcome.Refuses (x : Outcome α) : Prop := ∀ e, x = .error e → e.IsRefusal

namespace Outcome

theorem refuses_of_ok {x : Outcome α} (h : ∃ a, x = .ok a) : x.Refuses := by
  rintro e he
  obtain ⟨a, ha⟩ := h
  rw [ha] at he
  cases he

theorem refuses_error {e : Failure} (h : e.IsRefusal) : Refuses (.error e : Outcome α) := by
  rintro _ ⟨⟩
  exact h

theorem Refuses.bind {x : Outcome α} {f : α → Outcome β} (hx : x.Refuses)
    (hf : ∀ a, x = .ok a → (f a).Refuses) : (x >>= f).Refuses := by
  intro e he
  rcases bind_eq_error.mp he with he | ⟨a, ha, he⟩
  · exact hx e he
  · exact hf a ha e he

theorem refuses_mapM {f : α → Outcome β} (h : ∀ a, (f a).Refuses) (xs : List α) : (xs.mapM f).Refuses := by
  intro e he
  obtain ⟨a, -, ha⟩ := error_of_mapM he
  exact h a e ha

end Outcome

open Outcome (refuses_of_ok refuses_error refuses_mapM)

/-! ## Constraints -/

namespace Constraint

variable {schema : Schema}

theorem expectedKind_refuses (t : RelationType) : (expectedKind t).Refuses := by
  unfold expectedKind
  split
  · split
    · exact refuses_of_ok ⟨_, rfl⟩
    · exact refuses_error trivial
  · exact refuses_of_ok ⟨_, rfl⟩

theorem coerce_refuses (name : String) (expected : Option ValueKind) (v : Value) :
    (coerce name expected v).Refuses := by
  unfold coerce
  split
  · exact refuses_of_ok ⟨_, rfl⟩
  · split
    · exact refuses_of_ok ⟨_, rfl⟩
    · split
      · exact refuses_of_ok ⟨_, rfl⟩
      · exact refuses_error trivial

theorem conditionsOf_refuses (t : RelationType) (expected : Option ValueKind) (test : KeyTest) :
    (conditionsOf t expected test).Refuses := by
  have hone := coerce_refuses t.name expected
  unfold conditionsOf
  split
  · exact refuses_of_ok ⟨_, rfl⟩
  · exact (hone _).bind fun _ _ => refuses_of_ok ⟨_, rfl⟩
  · exact (refuses_mapM hone _).bind fun _ _ => refuses_of_ok ⟨_, rfl⟩
  · exact refuses_of_ok ⟨_, rfl⟩
  · exact (hone _).bind fun _ _ => refuses_of_ok ⟨_, rfl⟩
  · exact (refuses_mapM hone _).bind fun _ _ => refuses_of_ok ⟨_, rfl⟩

theorem normalizeFrom_refuses (conditions : List Condition) (constraints : List Constraint) :
    (normalizeFrom schema conditions constraints).Refuses := by
  induction constraints generalizing conditions with
  | nil => exact refuses_of_ok ⟨_, rfl⟩
  | cons c constraints ih =>
    unfold normalizeFrom
    split
    · split
      · exact ih conditions
      · exact refuses_of_ok ⟨_, rfl⟩
    · refine (expectedKind_refuses _).bind fun expected _ => ?_
      refine (conditionsOf_refuses _ expected c.test).bind fun found _ => ?_
      cases found with
      | none => exact refuses_of_ok ⟨_, rfl⟩
      | some new => exact ih _

end Constraint

/-! ## Types -/

/-- The indexes of every type are found under their numbers. -/
def Schema.FindsIndexes (schema : Schema) : Prop :=
  ∀ name t, schema.named? name = some t → ∀ i ∈ t.indexes, ∃ x, schema.type? i = some x

/-- After any calls the indexes of every type are found. -/
theorem Schema.findsIndexes_after (calls : List Tables.Call) :
    (after (calls.map Tables.Call.step)).FindsIndexes := by
  have h := Tables.inStep_after calls
  intro name t ht i hi
  rw [← h.represents.byName] at ht
  obtain ⟨x, hx, rfl, -⟩ := (h.fits t (h.keyed.has_of_named ht)).indexes i hi
  exact ⟨x, (h.represents.byId _).symm.trans hx⟩

theorem Schema.FindsIndexes.indexesOver {schema : Schema} (h : schema.FindsIndexes) {name : String}
    {t : RelationType} (ht : schema.named? name = some t) : ∃ xs, schema.indexesOver t = .ok xs :=
  ⟨_, indexesOver_eq_ok (h name t ht)⟩

namespace Candidate

variable {schema : Schema} {t : RelationType} {d : Direction} {intervals : SortedMap TypeId Interval}
  {order : ResultOrder}

/-- A type whose indexes are found and that is kept at the end answers there at least itself. -/
theorem exists_select (hindexes : ∃ xs, schema.indexesOver t = .ok xs) (h : isEligible t d t = true) :
    ∃ best, select schema t d intervals order = .ok best := by
  obtain ⟨xs, hxs⟩ := hindexes
  obtain ⟨c, hc, -⟩ := select_best (all_eq_ok hxs) ⟨t, List.mem_cons_self, isEligible_iff.mp h⟩
  exact ⟨_, hc⟩

end Candidate

/-- The slices that compiling asks for: over a category, over a layout at both ends without a restriction,
and over a layout at one end with any restriction. -/
inductive Layout.Asked : Outcome Slice → Prop where
  | category (c : Category) (system : Bool) : Asked (categorySlice c system)
  | bothEnds (t : RelationType) : Asked (typeSlice t .both .none)
  | oneEnd (t : RelationType) {d : Direction} (hd : d ∈ Direction.ends) (k : KeyRestriction) :
      Asked (typeSlice t d k)

/-- All these slices exist. -/
theorem Layout.Asked.exists_slice {x : Outcome Slice} (h : Asked x) : ∃ slice, x = .ok slice := by
  cases h with
  | category c system => exact exists_categorySlice c system
  | bothEnds t => exact exists_typeSlice t .both
  | oneEnd t hd k =>
    obtain ⟨end?, hend⟩ := Query.directionByte?_of_mem hd
    exact exists_restrictedSlice t hend k

/-- The read is of one of these slices, with some limit. -/
def PlannedRead.IsAsked (read : PlannedRead) : Prop :=
  ∃ x slice limit, Layout.Asked x ∧ x = .ok slice ∧ read.slice = slice.withLimit limit

/-! ## Reads -/

namespace Query

variable {s : Setting} {q : Query} {t : RelationType} {d e f : Direction} {category category' : Category}

theorem isDirected_of_endOf? (h : endOf? t d = some e) (hf : e.covers f = true) (he : f ∈ Direction.ends) :
    t.isDirected .both = true ∨ t.isDirected f = true := by
  unfold endOf? RelationType.isDirected at h
  unfold RelationType.isDirected
  cases ht : t.directionality <;> cases d <;> cases f <;> simp_all [Direction.covers, Direction.ends]

/-- A type that is admitted can be read through its own layout wherever it is to be read. -/
theorem isEligible_of_admitted (h : q.admitted t d category = .ok (category', some e))
    (he : f ∈ Direction.ends) (hf : e.covers f = true) : Candidate.isEligible t f t = true := by
  have hdirected : t.isDirected .both = true ∨ t.isDirected f = true := by
    obtain ⟨-, -, ⟨-, -, hend⟩ | ⟨-, -, hend⟩⟩ | ⟨-, -, -, hend⟩ := admitted_cases h
    · cases hend
    · exact isDirected_of_endOf? hend.symm hf he
    · exact isDirected_of_endOf? hend.symm hf he
  simpa [Candidate.isEligible] using hdirected

theorem admitted_refuses (q : Query) (t : RelationType) (d : Direction) (category : Category) :
    (q.admitted t d category).Refuses := by
  unfold admitted
  split
  · exact refuses_error trivial
  · split
    · exact refuses_error trivial
    · split
      · split
        · exact refuses_error trivial
        · split <;> exact refuses_of_ok ⟨_, rfl⟩
      · split
        · exact refuses_error trivial
        · exact refuses_of_ok ⟨_, rfl⟩

variable {keys : KeyIntervals}

theorem exists_readsAtEnd (hindexes : ∃ xs, s.schema.indexesOver t = .ok xs)
    (h : Candidate.isEligible t f t = true) (he : f ∈ Direction.ends) :
    ∃ reads, readsAtEnd s q keys t f = .ok reads := by
  obtain ⟨⟨layout, score⟩, hselect⟩ : ∃ best,
      Candidate.select s.schema t f keys.intervals q.order = .ok best := Candidate.exists_select hindexes h
  cases hreads : (planAt s q keys layout f score.supportsOrder).reads with
  | ok reads => exact ⟨reads, Outcome.bind_eq_ok.mpr ⟨_, hselect, hreads⟩⟩
  | error e =>
    obtain ⟨hboth, -⟩ := ReadPlan.expand_error hreads
    obtain rfl : f = .both := hboth
    exact absurd he (by decide)

theorem exists_readsOfType (hindexes : ∃ xs, s.schema.indexesOver t = .ok xs)
    (h : q.admitted t d category = .ok (category', some e)) :
    ∃ reads, readsOfType s q keys t e = .ok reads := by
  obtain ⟨slice, hslice⟩ := Layout.exists_typeSlice t .both
  obtain ⟨parts, hparts⟩ : ∃ parts, (Direction.ends.filter e.covers).mapM (readsAtEnd s q keys t) =
      .ok parts := by
    refine Outcome.exists_mapM fun f hf => ?_
    obtain ⟨he, hf⟩ := List.mem_filter.mp hf
    exact exists_readsAtEnd hindexes (isEligible_of_admitted h he hf) he
  unfold readsOfType
  rw [endsOf_eq, hslice, hparts]
  split <;> exact ⟨_, rfl⟩

theorem readsOfTypes_refuses (hs : s.schema.FindsIndexes) (names : List String) :
    (readsOfTypes s q keys d category names).Refuses := by
  induction names generalizing category with
  | nil => exact refuses_of_ok ⟨_, rfl⟩
  | cons name names ih =>
    rw [readsOfTypes]
    split
    · exact ih
    · rename_i t ht
      refine (admitted_refuses q t d category).bind fun admitted hadmitted => ?_
      obtain ⟨category', end?⟩ := admitted
      cases end? with
      | none => exact ih
      | some e =>
        refine (refuses_of_ok (exists_readsOfType (hs.indexesOver ht) hadmitted)).bind fun _ _ => ?_
        exact ih.bind fun _ _ => refuses_of_ok ⟨_, rfl⟩

theorem plan_refuses (hs : s.schema.FindsIndexes) (conditions : List Condition) :
    (plan s q d category conditions).Refuses := by
  unfold plan
  split
  · obtain ⟨slice, hslice⟩ := Layout.exists_categorySlice category q.system
    exact refuses_of_ok ⟨_, by rw [untypedRead, hslice]; rfl⟩
  · dsimp only
    split
    · exact refuses_of_ok ⟨_, rfl⟩
    · refine (readsOfTypes_refuses hs q.types).bind fun found _ => ?_
      split <;> exact refuses_of_ok ⟨_, rfl⟩

/-- Compiling fails, if at all, because of what was asked. -/
theorem compile_refusal (hs : s.schema.FindsIndexes) (q : Query) (category : Category) :
    (q.compile s category).Refuses := by
  cases hq : q.error with
  | some reason =>
    simp only [compile, hq]
    exact refuses_error trivial
  | none =>
    simp only [compile, hq, Outcome.guard_eq]
    split
    · exact refuses_error rfl
    · split
      · exact refuses_of_ok ⟨_, rfl⟩
      · split
        · refine (Constraint.normalizeFrom_refuses [] q.constraints).bind fun found _ => ?_
          cases found with
          | none => exact refuses_of_ok ⟨_, rfl⟩
          | some conditions => exact plan_refuses hs conditions
        · exact refuses_of_ok ⟨_, rfl⟩

variable {keys : KeyIntervals} {reads : List PlannedRead} {read : PlannedRead} {compiled : CompiledQuery}

theorem asked_of_readsAtEnd (h : readsAtEnd s q keys t f = .ok reads) (hf : f ∈ Direction.ends)
    (hr : read ∈ reads) : read.IsAsked := by
  obtain ⟨layout, score, -, hreads⟩ := readsAtEnd_eq_ok h
  obtain ⟨restriction, slice, remaining, hslice, he, -⟩ := ReadPlan.expand_mem hreads hr
  exact ⟨_, slice, _, .oneEnd layout hf restriction, hslice, he⟩

theorem asked_of_readsOfType (h : readsOfType s q keys t e = .ok reads) (hr : read ∈ reads) :
    read.IsAsked := by
  rcases readsOfType_cases h with ⟨-, -, -, slice, hslice, rfl⟩ | ⟨-, hparts⟩
  · obtain rfl := List.mem_singleton.mp hr
    exact ⟨_, slice, _, .bothEnds t, hslice, rfl⟩
  · obtain ⟨f, hf, -, part, hpart, hread⟩ := hparts read hr
    exact asked_of_readsAtEnd hpart hf hread

/-- All reads of a compiled query are of slices that compiling asks for. -/
theorem asked_of_compile (h : q.compile s category = .ok compiled) (hr : read ∈ compiled.reads) :
    read.IsAsked := by
  rcases compile_eq_ok h with ⟨rfl, -⟩ | ⟨d, conditions, -, -, hplan⟩
  · cases hr
  · rcases plan_eq_ok hplan with ⟨-, only, honly, rfl⟩ | ⟨-, -, rfl⟩ | ⟨-, types, reads, hreads, he⟩
    · obtain rfl := List.mem_singleton.mp hr
      obtain ⟨slice, hslice, ⟨limit, -, hwith⟩, -⟩ := untypedRead_eq_ok honly
      exact ⟨_, slice, limit, .category category q.system, hslice, hwith⟩
    · cases hr
    · rcases he with ⟨-, rfl⟩ | ⟨-, rfl⟩
      · cases hr
      · obtain ⟨name, -, t, _, _, e, part, -, -, -, hpart, hread⟩ := readsOfTypes_mem hreads hr
        exact asked_of_readsOfType hpart hread

/-- After any calls that write to a schema, a query compiles or is refused because of what was asked.  The
indexes of every type are found, so that a type that is admitted is itself among the layouts to choose from,
and can be read at every end where it is to be read.  All slices that compiling asks for exist, and
the reads of a compiled query are of such slices. -/
theorem compile_refuses (calls : List Schema.Tables.Call) (q : Query) (hardMax : Nat) (modified : Bool)
    (category : Category) :
    let schema := Schema.after (calls.map Schema.Tables.Call.step)
    (∀ e, q.compile ⟨schema, hardMax, modified⟩ category = .error e → e.IsRefusal ∧ ¬ e.IsInternal) ∧
      schema.FindsIndexes ∧
      (∀ name t d category category' e f, schema.named? name = some t →
        q.admitted t d category = .ok (category', some e) → f ∈ Direction.ends → e.covers f = true →
        Candidate.isEligible t f t = true ∧
          ∃ candidates, Candidate.all schema t = .ok candidates ∧ t ∈ candidates) ∧
      (∀ x, Layout.Asked x → ∃ slice, x = .ok slice) ∧
      ∀ compiled, q.compile ⟨schema, hardMax, modified⟩ category = .ok compiled →
        ∀ read ∈ compiled.reads, read.IsAsked := by
  intro schema
  have hs : schema.FindsIndexes := Schema.findsIndexes_after calls
  refine ⟨fun e he => ?_, hs, fun name t d c c' e f ht hadmitted hf hcovers => ?_,
    fun x hx => hx.exists_slice, fun compiled h read hr => asked_of_compile h hr⟩
  · have hrefusal := compile_refusal hs q category e he
    exact ⟨hrefusal, hrefusal.not_internal⟩
  · obtain ⟨xs, hxs⟩ := hs.indexesOver ht
    exact ⟨isEligible_of_admitted hadmitted hf hcovers, t :: xs, Outcome.bind_eq_ok.mpr ⟨xs, hxs, rfl⟩,
      List.mem_cons_self⟩

/-- Edges kept where they come in, with an index in the order of their time. -/
def inwardCalls : List Schema.Tables.Call := [
  .define (.propertyKey "time" .int),
  .define { TypeDefinition.edgeLabel "likes" with directionality := .into },
  .defineIndex ⟨"likes", "likedAt", ["time"], .into, .asc, .enabled⟩]

def inwardSchema : Schema := Schema.after (inwardCalls.map Schema.Tables.Call.step)

/-- The edges since a time. -/
def inward : Query :=
  build inwardSchema Settings.queryDefaults [.types ["likes"], .hasCompared "time" .ge (.int 5)]

/-- The query is answered through the index, and refused where properties are wanted. -/
theorem compile_refuses_inward :
    (∃ compiled, inward.compile ⟨inwardSchema, 100, false⟩ .edge = .ok compiled ∧
      compiled.reads.length = 1 ∧ ∀ read ∈ compiled.reads, read.IsAsked) ∧
    ∃ e, inward.compile ⟨inwardSchema, 100, false⟩ .property = .error e ∧ e.IsRefusal := by
  have hedges : (inward.compile ⟨inwardSchema, 100, false⟩ .edge).toOption.isSome := by decide +kernel
  have hlength : ((inward.compile ⟨inwardSchema, 100, false⟩ .edge).toOption.getD .empty).reads.length =
      1 := by
    decide +kernel
  have hproperties : (inward.compile ⟨inwardSchema, 100, false⟩ .property).toOption.isNone := by
    decide +kernel
  constructor
  · obtain ⟨-, -, -, -, hasked⟩ := compile_refuses inwardCalls inward 100 false .edge
    have hcompiled := Outcome.eq_ok_getD hedges .empty
    exact ⟨_, hcompiled, hlength, hasked _ hcompiled⟩
  · obtain ⟨hrefuses, -⟩ := compile_refuses inwardCalls inward 100 false .property
    cases h : inward.compile ⟨inwardSchema, 100, false⟩ .property with
    | ok compiled =>
      rw [h] at hproperties
      cases hproperties
    | error e => exact ⟨e, rfl, (hrefuses e h).1⟩

end Query

end RowGraph
