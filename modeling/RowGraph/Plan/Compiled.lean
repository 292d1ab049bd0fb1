import RowGraph.Constraint.Condition
import RowGraph.Plan.Expansion

/-!
# Compiled queries

A compiled query does not depend on the vertex that it will be asked of. It lists the slices to read
and keeps the condition that results must satisfy where a slice alone does not make sure of it.
-/

namespace RowGraph

/-- A query ready to run. -/
structure CompiledQuery where
  /-- What results must satisfy, but for what depends on the vertex. -/
  condition : Condition
  direction : Direction
  reads : List PlannedRead
  order : ResultOrder
  limit : Nat
  deriving Repr, Inhabited

namespace CompiledQuery

/-- The query without results. -/
def empty : CompiledQuery := ⟨.and [], .both, [], .none, 0⟩

/-- Is there nothing to read? -/
def isEmpty (q : CompiledQuery) : Bool := q.reads.isEmpty

/-- Is it answered by one slice that is fitted and ordered? -/
def isSimple (q : CompiledQuery) : Bool :=
  match q.reads with
  | [only] => only.fitted && only.ordered
  | _ => false

/-- The same query? -/
def same (a b : CompiledQuery) : Bool :=
  a.condition == b.condition && a.direction == b.direction && a.reads == b.reads &&
    a.order == b.order && a.limit == b.limit

/-- The condition on the results for one vertex: it sits at the end that the query asks for, and an
adjacent vertex is at the other end. -/
def bind (q : CompiledQuery) (v : VertexId) (adjacent : Option Adjacent) : Condition :=
  if q.isEmpty then q.condition
  else
    let conditions := match q.condition with
      | .and children => children
      | other => [other]
    .and (conditions ++ [.direction v q.direction] ++
      match adjacent with
      | some a => [.incidence v a.vertex]
      | none => [])

end CompiledQuery

end RowGraph
