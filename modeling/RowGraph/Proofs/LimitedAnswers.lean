import RowGraph.Proofs.ReadOrder
import RowGraph.Proofs.RowAnswers

/-!
# Limits lose nothing

Running a compiled query in general, with inflated limits, repeated reads, local changes and a final
cut, gives as many of the relations that count as the query wants, or all of them, in the order of the
query.  If every column of the row is one of the relation stored there, nothing that was left out is
before a result (`general_answers`).  In a row where columns hold other relations than their own, a
read in column order may miss the best results (`misplaced_missed`).
-/

namespace RowGraph

open GraphView (candidates)

namespace GraphTx

variable {g : GraphTx StoreHandle TxHandle} {memory : Memory} {v : VertexId} {schema : Schema}

/-- A transaction that can read from memory reads a readable row. -/
theorem readsRow (hg : g.CanRead) (features : Features) (hrow : (g.rowAt memory v).Readable) :
    (g.view (Local.backend features)).ReadsRow (fun s => s.memory = memory) v (g.rowAt memory v) :=
  ⟨hrow, fun slice => g.readSlice_yields hg features hrow slice⟩

variable {calls : List QueryCall} {category : Category} {compiled : CompiledQuery}

/-- What running a compiled query in general gives. -/
theorem general_answers (hs : schema.Built) (hg : g.CanRead) (features : Features)
    (hrow : (g.rowAt memory v).Readable)
    (hsize : (g.rowAt memory v).size ≤ g.settings.query.hardMaxLimit)
    (hmost : g.settings.query.hardMaxLimit ≤ ReadLimit.most)
    (hc : (g.query schema calls).compile (g.setting schema) category = .ok compiled)
    (hne : compiled.isEmpty = false) :
    let view := g.view (Local.backend features)
    let condition := compiled.bind v (g.query schema calls).adjacent
    let all := view.candidates v compiled condition (g.rowAt memory v)
    (view.general v compiled condition).Yields (fun s => s.memory = memory) fun results =>
      ∃ left, (results ++ left).Perm all ∧
        results.length =
          (if compiled.limit = ReadLimit.most then all.length else min compiled.limit all.length) ∧
        (results.Pairwise fun a b => compiled.order.cmp v a b ≠ .gt) ∧
        ((g.rowAt memory v).Written schema v →
          ∀ x ∈ left, ∀ y ∈ results, compiled.order.cmp v x y ≠ .lt) := by
  intro view condition all
  obtain ⟨hlimit, horder, hcovers⟩ := Query.compile_limits hc hne
  have hreads := readsRow hg features hrow
  by_cases hm : compiled.limit = ReadLimit.most
  · have hunlimited : ∀ read ∈ compiled.reads, read.slice.limit = none := by
      intro read hr
      refine (hcovers read hr).1.mpr ?_
      rw [Query.limit?, if_pos (hlimit ▸ hm)]
    refine (GraphView.general_unlimited hreads hm hunlimited).mono fun results h => ?_
    refine ⟨[], by simpa using h.1, ?_, h.2, by simp⟩
    rw [if_pos hm]
    exact h.1.length_eq
  · have hpositive : ∀ read ∈ compiled.reads, ∀ l, read.slice.limit = some l → 1 ≤ l := by
      intro read hr l hl
      have := (hcovers read hr).2 l hl
      have := Query.limit_ne_zero hc hne
      omega
    by_cases hw : (g.rowAt memory v).Written schema v
    · have hsorted : ∀ read ∈ compiled.reads, read.ordered = true →
          ((g.rowAt memory v).relations (read.slice.withLimit none)).Pairwise
            fun a b => compiled.order.cmp v a b ≠ .gt := by
        intro read hr hord
        rw [horder]
        exact Query.compile_ordered hs.sound (Query.declared_build hs.sound _ calls) hc hr hord hw
      refine (GraphView.general_limited hreads hsize hmost hm hpositive (.inl rfl) hsorted).mono ?_
      rintro results ⟨left, hperm, hlen, hpairwise, hbest⟩
      refine ⟨left, hperm, ?_, hpairwise, fun _ => hbest⟩
      rw [if_neg hm]
      exact hlen
    · have hempty : ResultOrder.none.isEmpty = true := rfl
      refine (GraphView.general_limited hreads hsize hmost hm hpositive (.inr hempty)
        fun _ _ _ => ResultOrder.pairwise_of_isEmpty hempty v _).mono ?_
      rintro results ⟨left, hperm, hlen, hpairwise, -⟩
      refine ⟨left, hperm, ?_, hpairwise, fun h => absurd h hw⟩
      rw [if_neg hm]
      exact hlen

end GraphTx

/-! ## Two ratings, of which one is wanted -/

namespace Rated

/-- Ratings, kept where they go out and sorted by `a`. -/
def steps : List Schema.Step := [
  .define (.propertyKey "a" .int),
  .define (.propertyKey "b" .int),
  .define { TypeDefinition.edgeLabel "rated" with sortKey := ["a"], directionality := .out }]

def schema : Schema := (Schema.ofSteps steps).toOption.getD .initial

theorem schema_built : schema.Built :=
  Schema.built_getD (by decide +kernel) (by decide +kernel)

/-- A rating of vertex 2 by vertex 1. -/
def rating (id : UInt64) (a : Int64) : Relation :=
  { Relation.edge ⟨id⟩ ⟨1026⟩ ⟨1⟩ ⟨2⟩ with properties := .ofList [(⟨1024⟩, .int a)] }

def opened : Outcome (GraphTx StoreHandle TxHandle) × Local :=
  (GraphTx.openAfter schema [rating 9 9, rating 7 1]).exec .new

def reader : GraphTx StoreHandle TxHandle :=
  opened.1.toOption.getD
    ⟨⟨0, "edgestore"⟩, "edgestore", none, .steady, [], .empty, .empty, .empty, none, .empty⟩

/-- The rating that is least by `a`, of those whose `b` is not five. -/
def calls : List QueryCall := [
  .types ["rated"], .direction .out, .orderBy "a" .asc, .limit 1, .hasCompared "b" .ne (.int 5)]

/-- The ratings with nine as their `a`. -/
def nines : List QueryCall := [.types ["rated"], .direction .out, .hasCompared "a" .eq (.int 9)]

def compiled : CompiledQuery :=
  ((reader.query schema calls).compile (reader.setting schema) .edge).toOption.getD .empty

theorem compile_eq :
    (reader.query schema calls).compile (reader.setting schema) .edge = .ok compiled :=
  Outcome.eq_ok_getD (by decide +kernel) _

theorem committed : Committed schema [rating 9 9, rating 7 1]
    (opened.2.memory.table reader.store.number) := by
  apply Committed.of_check <;> decide +kernel

theorem canRead : reader.CanRead := ⟨by decide +kernel, by decide +kernel⟩

/-- The column of a rating. -/
def columnOf (r : Relation) : Bytes :=
  ((Layout.entriesFor schema r).toOption.bind List.head?).elim [] fun x => x.2.column

/-- What the row of vertex 1 holds. -/
def held : (reader.rowAt opened.2.memory ⟨1⟩).Held :=
  ⟨[(columnOf (rating 7 1), rating 7 1), (columnOf (rating 9 9), rating 9 9)], by decide +kernel⟩

def view : GraphView Local := reader.view (Local.backend Memory.defaultFeatures)

/-- The ratings with their columns exchanged. -/
def misplaced : Memory :=
  let row := reader.rowAt opened.2.memory ⟨1⟩
  opened.2.memory.mutate reader.store.number (Layout.rowKey ⟨1⟩)
    ⟨row.keys.zipWith Entry.mk row.values.reverse, []⟩

def heldMisplaced : (reader.rowAt misplaced ⟨1⟩).Held :=
  ⟨[(columnOf (rating 7 1), rating 9 9), (columnOf (rating 9 9), rating 7 1)], by decide +kernel⟩

end Rated

theorem GraphTx.general_answers_rated :
    ∃ results s', (Rated.view.general ⟨1⟩ Rated.compiled (Rated.compiled.bind ⟨1⟩ none)).exec
      Rated.opened.2 = (.ok results, s') ∧ results.length = 1 := by
  obtain ⟨results, s', hrun, -, left, -, hlen, -⟩ := GraphTx.general_answers Rated.schema_built
    Rated.canRead Memory.defaultFeatures Rated.held.decodes.readable (by decide +kernel) (by decide +kernel)
    Rated.compile_eq (by decide +kernel) Rated.opened.2 rfl
  refine ⟨results, s', hrun, hlen.trans ?_⟩
  rw [GraphView.candidates_of_decodes Rated.held.decodes]
  decide +kernel

/-- Where a column holds another relation than its own, the best result may be left out. -/
theorem misplaced_missed :
    ∃ compiled results,
      (Rated.reader.query Rated.schema Rated.calls).compile (Rated.reader.setting Rated.schema) .edge
        = .ok compiled ∧ compiled.isEmpty = false ∧
      (Rated.reader.rowAt Rated.misplaced ⟨1⟩).Readable ∧
      (Rated.reader.rowAt Rated.misplaced ⟨1⟩).size ≤ Rated.reader.settings.query.hardMaxLimit ∧
      ((Rated.view.general ⟨1⟩ compiled (compiled.bind ⟨1⟩ none)).exec
        { Rated.opened.2 with memory := Rated.misplaced }).1.toOption = some results ∧
      ∃ x ∈ Rated.view.candidates ⟨1⟩ compiled (compiled.bind ⟨1⟩ none)
          (Rated.reader.rowAt Rated.misplaced ⟨1⟩),
        x ∉ results ∧ ∃ y ∈ results, compiled.order.cmp ⟨1⟩ x y = .lt := by
  refine ⟨Rated.compiled, [Rated.rating 9 9], Rated.compile_eq, by decide +kernel,
    Rated.heldMisplaced.decodes.readable, by decide +kernel, by decide +kernel,
    Rated.rating 7 1, ?_, by decide +kernel, Rated.rating 9 9, ?_⟩
  · rw [GraphView.candidates_of_decodes Rated.heldMisplaced.decodes]
    decide +kernel
  · decide +kernel

end RowGraph
