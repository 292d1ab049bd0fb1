import RowGraph.Constraint.Normal
import RowGraph.Constraint.Absorption
import RowGraph.Plan.ResultOrder
import RowGraph.Plan.ReadLimit
import RowGraph.Settings

/-!
# Queries

A query about the relations of one vertex is built by calls, each adding to what came before. The
first call that is invalid when it is made is remembered and makes the query fail when it is
compiled; types, constraints and order keys given after it are ignored.
-/

namespace RowGraph

/-- What a query asks for. -/
structure Query where
  types : List String
  direction : Direction
  constraints : List Constraint
  order : ResultOrder
  /-- How many results are wanted at most; `ReadLimit.most` for all. -/
  limit : Nat
  adjacent : Option Adjacent
  /-- Are system relations wanted instead of normal ones? -/
  system : Bool
  /-- Must the answer come from the store alone? -/
  onlyLoaded : Bool
  /-- Is only the row of the vertex itself read, even if it is partitioned? -/
  onlyGivenVertex : Bool
  restrictToPartitions : Bool
  /-- What is wrong with the first invalid call. -/
  error : Option String
  deriving DecidableEq, Repr, Inhabited

/-- A call that builds a query. -/
inductive QueryCall where
  | types (names : List String)
  | direction (d : Direction)
  | constraint (c : Constraint)
  /-- From the first value up to but not including the second. -/
  | interval (key : String) (start stop : Value)
  | adjacent (a : Adjacent)
  | orderBy (key : String) (direction : SortOrder)
  | limit (n : Nat)
  | system
  | onlyLoaded
  | onlyGivenVertex
  | noPartitionRestriction
  deriving DecidableEq, Repr

namespace QueryCall

/-- The relation has a value for the key. -/
def hasKey (key : String) : QueryCall := .constraint ⟨key, .compare .ne none⟩

/-- The relation has no value for the key. -/
def hasNot (key : String) : QueryCall := .constraint ⟨key, .compare .eq none⟩

/-- The value of the key compares with a given one. -/
def hasCompared (key : String) (c : Comparison) (v : Value) : QueryCall :=
  .constraint ⟨key, .compare c (some v)⟩

end QueryCall

namespace Query

/-- The query for everything. -/
def initial (settings : QuerySettings) : Query where
  types := []
  direction := .both
  constraints := []
  order := .none
  limit := ReadLimit.most
  adjacent := none
  system := false
  onlyLoaded := false
  onlyGivenVertex := false
  restrictToPartitions := settings.restrictToPartitions
  error := none

/-- Remembers an invalid call, unless there was one before. -/
def fail (q : Query) (message : String) : Query := { q with error := some (q.error.getD message) }

/-- Adds a constraint. Its key must have a name. -/
def constrain (q : Query) (c : Constraint) : Query :=
  if q.error.isSome then q
  else if c.key.isEmpty then q.fail "constraint key must not be empty"
  else { q with constraints := q.constraints ++ [c] }

/-- Adds a key to the order of results. -/
def orderBy (schema : Schema) (q : Query) (key : String) (direction : SortOrder) : Query :=
  if q.error.isSome then q
  else match schema.named? key with
    | none => q.fail ("unknown order key " ++ key)
    | some t =>
      if !t.isPropertyKey || t.implicit then
        q.fail ("order key " ++ key ++ " must be a property key")
      else match q.order.add? t.id direction with
        | some order => { q with order := order }
        | none => q.fail "all order keys must share one direction"

/-- The query after a call. -/
def call (schema : Schema) (q : Query) : QueryCall → Query
  | .types names => if q.error.isSome then q else { q with types := q.types ++ names }
  | .direction d => { q with direction := d }
  | .constraint c => q.constrain c
  | .interval key start stop =>
    (q.constrain ⟨key, .compare .ge (some start)⟩).constrain ⟨key, .compare .lt (some stop)⟩
  | .adjacent a => { q with adjacent := some a }
  | .orderBy key direction => orderBy schema q key direction
  | .limit n => { q with limit := n }
  | .system => { q with system := true }
  | .onlyLoaded => { q with onlyLoaded := true }
  | .onlyGivenVertex => { q with onlyGivenVertex := true }
  | .noPartitionRestriction => { q with restrictToPartitions := false }

/-- The query built by a list of calls. -/
def build (schema : Schema) (settings : QuerySettings) (calls : List QueryCall) : Query :=
  calls.foldl (call schema) (initial settings)

/-- The limit, if there is one. -/
def limit? (q : Query) : Option Nat := if q.limit = ReadLimit.most then none else some q.limit

end Query

end RowGraph
