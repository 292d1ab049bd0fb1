import RowGraph.Storage.Memory
import RowGraph.Storage.Transactional

/-!
# Rehearsals

Calls and transactions whose outcomes are written down beforehand, to see how the executor deals
with them. The outcome written last repeats for ever.
-/

namespace RowGraph

/-- Entry `n` of a script, or the last one. -/
def scripted {α : Type} (script : List α) (otherwise : α) (n : Nat) : α :=
  script[n]?.getD (script.getLast?.getD otherwise)

/-- What a scripted call does. -/
structure ScriptedCall where
  /-- How the call fails. -/
  failure : Option Failure
  /-- Does it set the interrupt before it fails? -/
  interrupts : Bool

/-- The state of a rehearsal of calls. -/
structure Rehearsal where
  watch : Watch
  calls : Nat
  retries : Nat
  deriving DecidableEq, Repr, Inhabited

instance : Timed Rehearsal := ⟨fun r => r.watch.clock, fun r c => { r with watch.clock := c }⟩

namespace Rehearsal

/-- The state before the first call. -/
def start (interrupted : Bool) : Rehearsal := ⟨⟨.new, interrupted⟩, 0, 0⟩

/-- The next scripted call, which takes some time and answers its number. -/
def call (takes : Nanos) (script : List ScriptedCall) : Act Rehearsal Nat := Act.of fun r =>
  let r := passTime takes { r with calls := r.calls + 1 }
  let planned := scripted script ⟨none, false⟩ (r.calls - 1)
  match planned.failure with
  | none => (.ok r.calls, r)
  | some f =>
    (.error f, { r with watch.interrupted := r.watch.interrupted || planned.interrupts })

/-- The operation that repeats scripted calls. Every factor that is drawn is one. -/
def operation (name : String) (budget : Nanos) (policy : RetryPolicy) : Operation Rehearsal where
  name := name
  budget := budget
  policy := policy
  draw := fun _ => .ofNat 1
  interrupted := fun r => r.watch.interrupted
  note := fun r => { r with retries := r.retries + 1 }

end Rehearsal

/-- How a scripted transaction fails. -/
structure ScriptedTx where
  opening : Option Failure
  work : Option Failure
  commit : Option Failure
  rollback : Option Failure
  deriving Inhabited

/-- The state of a rehearsal of transactions. -/
structure TxRehearsal where
  clock : Clock
  memory : Memory
  /-- How many transactions the script has used. -/
  used : Nat
  /-- The options of the transactions that were opened. -/
  opened : SortedMap Nat TxOptions
  /-- The calls, each with the number of its transaction. -/
  log : List (String × Nat)
  /-- The transactions that work was done in, with their options at that time. -/
  seen : List (Nat × TxOptions)
  deriving Inhabited

instance : Timed TxRehearsal := ⟨TxRehearsal.clock, fun r c => { r with clock := c }⟩

namespace TxRehearsal

/-- The state before the first transaction. -/
def start (elapsed : Nanos) : TxRehearsal :=
  ⟨⟨elapsed, []⟩, .new, 0, .empty, [], []⟩

/-- Logs a call of a transaction, which fails as planned. -/
def logged (call : String) (tx : Nat) (planned : Option Failure) : Act TxRehearsal Unit := do
  Act.update fun r => { r with log := r.log ++ [(call, tx)] }
  match planned with
  | some f => throw f
  | none => return ()

/-- The plan of transaction `tx`, counted from one. -/
def plan (script : List ScriptedTx) (tx : Nat) : ScriptedTx :=
  scripted script ⟨none, none, none, none⟩ (tx - 1)

/-- Opens the next scripted transaction. An opening that fails still uses up a number. -/
def openScripted (script : List ScriptedTx) (o : TxOptions) : Act TxRehearsal Nat := do
  Act.update fun r => { r with used := r.used + 1 }
  let tx ← Act.asks TxRehearsal.used
  logged "open" tx (plan script tx).opening
  Act.update fun r => { r with opened := r.opened.put tx o }
  return tx

/-- The provider of scripted transactions. -/
def provider (script : List ScriptedTx) (o : TxOptions) : TxProvider TxRehearsal Nat where
  openTx := openScripted script o
  options := fun tx r => (r.opened.get? tx).getD .none
  stamp := fun tx micros r =>
    { r with opened := r.opened.alter tx fun o? => o?.map fun o => o.stamped micros }
  commit := fun tx => logged "commit" tx (plan script tx).commit
  rollback := fun tx => logged "rollback" tx (plan script tx).rollback

/-- The provider of transactions in memory. -/
def memoryProvider (o : TxOptions) : TxProvider TxRehearsal TxHandle :=
  Backend.provider
    ((Memory.backend Memory.defaultFeatures).within memory fun r m => { r with memory := m }) o

/-- The work in a transaction, given its number: it is seen and fails as planned. -/
def work {T : Type} (p : TxProvider TxRehearsal T) (script : List ScriptedTx) (number : T → Nat)
    (tx : T) : Act TxRehearsal Nat := do
  Act.update fun r => { r with seen := r.seen ++ [(number tx, p.options tx r)] }
  match (plan script (number tx)).work with
  | some f => throw f
  | none => return number tx

/-- The operation that repeats scripted transactions. -/
def operation (budget : Nanos) : Operation TxRehearsal where
  name := "tx"
  budget := budget
  policy := ⟨.ofMillis 50, .ofNat 0⟩
  draw := fun _ => .ofNat 1
  interrupted := fun _ => false
  note := id

/-- Rehearses work in transactions, once or, with a budget, as an operation. -/
def rehearse {T : Type} (p : TxProvider TxRehearsal T) (script : List ScriptedTx)
    (number : T → Nat) (budget : Option Nanos) : Act TxRehearsal Nat :=
  let micros (r : TxRehearsal) : Nat := r.clock.wallMicros
  match budget with
  | none => p.perform micros (work p script number)
  | some budget => p.performRepeatedly (operation budget) micros (work p script number)

end TxRehearsal

end RowGraph
