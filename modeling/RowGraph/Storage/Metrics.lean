/-!
# Counters

What the query layer and the locking layer count.
-/

namespace RowGraph

/-- Counters of the traffic with a backend. -/
structure Metrics where
  /-- Slices read. -/
  slices : Nat
  /-- Repetitions of failed calls. -/
  retries : Nat
  /-- Batches written through the consistent transaction. -/
  consistent : Nat
  /-- Batches written through the other one. -/
  inconsistent : Nat
  /-- Queries compiled. -/
  compiled : Nat
  /-- Slices of all compiled queries. -/
  backendQueries : Nat
  deriving DecidableEq, Repr, Inhabited

namespace Metrics

/-- Nothing counted. -/
def zero : Metrics := ⟨0, 0, 0, 0, 0, 0⟩

/-- One more slice read. -/
def countSlice (m : Metrics) : Metrics := { m with slices := m.slices + 1 }

/-- One more repetition. -/
def countRetry (m : Metrics) : Metrics := { m with retries := m.retries + 1 }

/-- One more batch. -/
def countBatch (m : Metrics) (consistent : Bool) : Metrics :=
  if consistent then { m with consistent := m.consistent + 1 }
  else { m with inconsistent := m.inconsistent + 1 }

/-- One more query, with its slices. -/
def countQuery (m : Metrics) (slices : Nat) : Metrics :=
  { m with compiled := m.compiled + 1, backendQueries := m.backendQueries + slices }

end Metrics

/-- States that hold counters. -/
class Metered (σ : Type) where
  metrics : σ → Metrics
  setMetrics : σ → Metrics → σ

/-- The state with its counters changed. -/
def count {σ : Type} [Metered σ] (f : Metrics → Metrics) (s : σ) : σ :=
  Metered.setMetrics s (f (Metered.metrics s))

end RowGraph
