import RowGraph.Failure
import RowGraph.Settings
import RowGraph.Word

/-!
# Clocks

A clock that moves only when it is told to or when somebody sleeps, so that every wait can be
accounted for. Sleeping does nothing and fails once an interrupt is set; an interrupt stays set
until it is cleared.
-/

namespace RowGraph

/-- A clock. -/
structure Clock where
  /-- The time since the clock was made. -/
  elapsed : Nanos
  /-- All sleeps, in order. -/
  sleeps : List Nanos
  deriving DecidableEq, Repr, Inhabited

namespace Clock

/-- A new clock. -/
def new : Clock := ⟨0, []⟩

/-- The wall time of a new clock in microseconds. -/
def startMicros : Nat := 1000000

/-- The wall time in microseconds, a number of 64 bits. -/
def wallMicros (c : Clock) : Nat := (startMicros + c.elapsed.toMicros) % Word.bound64

/-- Time passes. -/
def advance (c : Clock) (d : Nanos) : Clock := { c with elapsed := c.elapsed + d }

/-- Somebody sleeps. -/
def sleep (c : Clock) (d : Nanos) : Clock := ⟨c.elapsed + d, c.sleeps ++ [d]⟩

end Clock

/-- States that hold a clock. -/
class Timed (σ : Type) where
  clock : σ → Clock
  setClock : σ → Clock → σ

/-- The time since the clock was made. -/
def now {σ : Type} [Timed σ] (s : σ) : Nanos := (Timed.clock s).elapsed

/-- The state after time has passed. -/
def passTime {σ : Type} [Timed σ] (d : Nanos) (s : σ) : σ :=
  Timed.setClock s ((Timed.clock s).advance d)

/-- The state after a sleep. -/
def sleepFor {σ : Type} [Timed σ] (d : Nanos) (s : σ) : σ :=
  Timed.setClock s ((Timed.clock s).sleep d)

/-- A clock and an interrupt. -/
structure Watch where
  clock : Clock
  interrupted : Bool
  deriving DecidableEq, Repr, Inhabited

instance : Timed Watch := ⟨Watch.clock, fun w c => { w with clock := c }⟩

namespace Watch

/-- A new clock and no interrupt. -/
def new : Watch := ⟨.new, false⟩

/-- What can be done to a watch. -/
inductive Step where
  | advance (d : Nanos)
  /-- Sleep by the clock. -/
  | sleep (d : Nanos)
  /-- Wait in real time, of which the clock knows nothing. -/
  | wait (d : Nanos)
  | interrupt
  | clear
  deriving DecidableEq, Repr

/-- What a step reports. -/
inductive Report where
  | done
  /-- Was the interrupt set before it was cleared? -/
  | cleared (before : Bool)
  | failed (f : BackendFailure)

/-- A step of a watch. -/
def step (w : Watch) : Step → Report × Watch
  | .advance d => (.done, passTime d w)
  | .sleep d => if w.interrupted then (.failed .interrupted, w) else (.done, sleepFor d w)
  | .wait _ => if w.interrupted then (.failed .interrupted, w) else (.done, w)
  | .interrupt => (.done, { w with interrupted := true })
  | .clear => (.cleared w.interrupted, { w with interrupted := false })

/-- The reports of all steps, each with the watch after it. -/
def reports : Watch → List Step → List (Report × Watch)
  | _, [] => []
  | w, step :: rest =>
    let (report, w) := w.step step
    (report, w) :: reports w rest

end Watch

end RowGraph
