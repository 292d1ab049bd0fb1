import RowGraph.Storage.Clock
import RowGraph.Decimal.Binary64
import RowGraph.Word

/-!
# Repeating failed calls

A call that fails for a temporary reason is made again after a wait, which doubles from one time to
the next. A policy may vary every wait by a factor drawn near one. No wait may reach the deadline:
the budget counts from the first call, and the executor gives up when the next wait would use it up.
An interrupt ends the sleep that it finds, and the repetition with it.
-/

namespace RowGraph

namespace Nanos

/-- The nanoseconds of a second. -/
def perSecond : Nanos := 1000000000

/-- The longest span: seconds of 64 bits and all but one of the nanoseconds of another. -/
def longest : Nanos := Word.bound64 * perSecond - 1

/-- A span in seconds. -/
def toSeconds (d : Nanos) : Binary64 :=
  (Binary64.ofNat (d / perSecond)).add ((Binary64.ofNat (d % perSecond)).div (.ofNat perSecond))

/-- The span nearest to a number of seconds. -/
def ofSeconds (x : Binary64) : Nanos :=
  Binary64.roundHalfEven (x.units * perSecond) Binary64.unitsPerOne

/-- A span multiplied, by way of its seconds. -/
def scaled (d : Nanos) (factor : Binary64) : Nanos := ofSeconds (factor.mul d.toSeconds)

end Nanos

/-- How long to wait. -/
structure RetryPolicy where
  /-- The wait before the first repetition. -/
  baseWait : Nanos
  /-- The share by which a wait may be shorter or longer. -/
  jitter : Binary64
  deriving DecidableEq, Repr, Inhabited

namespace RetryPolicy

/-- The policy that settings ask for. -/
def ofSettings (s : RetrySettings) : RetryPolicy := ⟨.ofMillis s.baseWaitMillis, s.jitter⟩

/-- Does the policy vary the waits? -/
def varies (p : RetryPolicy) : Bool :=
  match Binary64.compareValues? p.jitter (.ofNat 0) with
  | some o => o == .gt
  | none => true

/-- The wait made of a nominal one with a factor that was drawn. -/
def wait (p : RetryPolicy) (factor : Binary64) (nominal : Nanos) : Nanos :=
  if p.varies then nominal.scaled factor else nominal

/-- May the nominal wait become the given one? -/
def allows (p : RetryPolicy) (nominal wait : Nanos) : Bool :=
  decide ((max nominal wait - min nominal wait) * Binary64.unitsPerOne ≤ p.jitter.units * nominal)

/-- The nominal wait before repetition `k`, counted from zero. It does not grow past the longest span. -/
def nominal (p : RetryPolicy) (k : Nat) : Nanos := min (p.baseWait * Nat.pow 2 k) Nanos.longest

/-- May these waits follow each other? -/
def allowsAll (p : RetryPolicy) (waits : List Nanos) : List Bool :=
  waits.mapIdx fun k wait => p.allows (p.nominal k) wait

end RetryPolicy

/-- What has become of a call. -/
inductive Attempt (α : Type) where
  | success (value : α)
  /-- It may succeed if made again. -/
  | transient (f : Failure)
  | permanent (f : BackendFailure)

/-- Classifies the outcome of a call by the innermost backend failure. -/
def Attempt.classify {α : Type} : Outcome α → Attempt α
  | .ok value => .success value
  | .error f =>
    if f.isTemporary then .transient f
    else match f with
      | .backend b => .permanent b
      | f => .permanent (.permanent "permanent failure in storage backend" (some f))

/-- A named call with a budget for its repetitions. -/
structure Operation (σ : Type) where
  name : String
  /-- The time within which all repetitions start. -/
  budget : Nanos
  policy : RetryPolicy
  /-- The factor drawn for every wait. -/
  draw : Nat → Binary64
  /-- Is the interrupt set? -/
  interrupted : σ → Bool
  /-- Takes note of a repetition. -/
  note : σ → σ

namespace Operation

variable {σ α : Type}

/-- The budget is used up. -/
def exhausted (op : Operation σ) (attempts : Nat) (last : Failure) : BackendFailure :=
  .temporary
    ("could not successfully complete " ++ op.name ++ " after " ++ toString attempts ++ " attempts")
    (some last)

/-- Calls follow each other without end; waits that take time rule this out. -/
def endless (op : Operation σ) (last : Failure) : BackendFailure :=
  .permanent (op.name ++ " is repeated without end") (some last)

/-- Makes a call until it ends, after `made` calls before; `fuel` bounds the repetitions. -/
def repeated [Timed σ] (op : Operation σ) (call : Act σ α) (deadline : Nanos) :
    (fuel made : Nat) → σ → Except BackendFailure α × σ
  | fuel, made, s =>
    let r := call.exec s
    match Attempt.classify r.1 with
    | .success value => (.ok value, r.2)
    | .permanent f => (.error f, r.2)
    | .transient last =>
      let wait := op.policy.wait (op.draw made) (op.policy.nominal made)
      if deadline ≤ now r.2 + wait then (.error (op.exhausted (made + 1) last), r.2)
      else
        let s := op.note r.2
        if op.interrupted s then (.error .interrupted, s)
        else match fuel with
          | 0 => (.error (op.endless last), s)
          | fuel + 1 => repeated op call deadline fuel (made + 1) (sleepFor wait s)

/-- More repetitions than a budget has room for. -/
def enough (budget : Nanos) : Nat := budget + Word.bound64

/-- Makes a call until it succeeds, fails for good or uses up the budget. -/
def direct [Timed σ] (op : Operation σ) (call : Act σ α) (s : σ) : Except BackendFailure α × σ :=
  if op.budget = 0 then (.error (.permanent "total wait time must be positive" none), s)
  else op.repeated call (now s + op.budget) (enough op.budget) 0 s

/-- The same as an operation that is named when it fails. -/
def run [Timed σ] (op : Operation σ) (call : Act σ α) : Act σ α := Act.of fun s =>
  if op.budget = 0 then (.error (.invalid "total wait time must be positive"), s)
  else match op.direct call s with
    | (.ok value, s) => (.ok value, s)
    | (.error f, s) => (.error (.operation op.name f), s)

end Operation

end RowGraph
