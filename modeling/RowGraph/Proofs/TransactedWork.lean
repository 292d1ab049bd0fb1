import RowGraph.Proofs.Lookup
import RowGraph.Proofs.Repetition
import RowGraph.Storage.Rehearsal

/-!
# Work in transactions

What becomes of the transactions that work is done in, written down while it is done (`chronicled`).  One
attempt opens one transaction, does the work in it once and uses no other (`Attempted`).  What an operation
writes down is what its trials write down, one after another (`repeatChronicled_exec`), and of these trials
all but the last one fail.

* `TxProvider.commits_once`: every trial is an attempt, of all their commits at most one succeeds, and it
  does exactly if the operation has a result.
* `TxProvider.closes_unless_commit_fails`: which transactions are neither committed nor rolled back.
* `unclosed_after_failed_commit`: such a transaction.
-/

namespace RowGraph

variable {σ T α β : Type}

/-! ## Chronicles -/

/-- What happens to transactions while work is done in them. -/
inductive TxEvent (σ T α : Type) where
  /-- A transaction was asked for, which left a state. -/
  | opened (outcome : Outcome T) (after : σ)
  /-- Work was done in a transaction, from a state on. -/
  | worked (tx : T) (before : σ) (outcome : Outcome α)
  | committed (tx : T) (outcome : Outcome Unit)
  | rolledBack (tx : T) (outcome : Outcome Unit)

namespace TxEvent

/-- The transaction that was opened. -/
def opened? : TxEvent σ T α → Option T
  | opened (.ok tx) _ => some tx
  | _ => none

theorem eq_opened {e : TxEvent σ T α} {tx : T} (h : e.opened? = some tx) : ∃ s, e = .opened (.ok tx) s := by
  unfold opened? at h
  split at h
  · rename_i s
    cases h
    exact ⟨s, rfl⟩
  · cases h

/-- The transaction that the event is about, if it is about one that was opened before. -/
def used? : TxEvent σ T α → Option T
  | opened .. => none
  | worked tx .. | committed tx _ | rolledBack tx _ => some tx

/-- The transaction that work was done in. -/
def worked? : TxEvent σ T α → Option T
  | worked tx .. => some tx
  | _ => none

/-- Was a transaction committed with success? -/
def isCommit : TxEvent σ T α → Bool
  | committed _ (.ok _) => true
  | _ => false

/-- Was it tried to roll a transaction back? -/
def isRollback : TxEvent σ T α → Bool
  | rolledBack .. => true
  | _ => false

end TxEvent

/-- A state with what has happened so far. -/
structure Chronicle (σ T α : Type) where
  base : σ
  events : List (TxEvent σ T α)

instance [Timed σ] : Timed (Chronicle σ T α) :=
  ⟨fun s => Timed.clock s.base, fun s c => { s with base := Timed.setClock s.base c }⟩

/-- The act with an event written down, which is made of the state before, the outcome and the state
after. -/
def writingDown (event : σ → Outcome β → σ → TxEvent σ T α) (act : Act σ β) :
    Act (Chronicle σ T α) β := Act.of fun s =>
  ((act.exec s.base).1, ⟨(act.exec s.base).2,
    s.events ++ [event s.base (act.exec s.base).1 (act.exec s.base).2]⟩)

/-- The provider with everything that happens to its transactions written down. -/
def TxProvider.chronicled (p : TxProvider σ T) : TxProvider (Chronicle σ T α) T where
  openTx := writingDown (fun _ o s => .opened o s) p.openTx
  options := fun tx s => p.options tx s.base
  stamp := fun tx micros s => { s with base := p.stamp tx micros s.base }
  commit := fun tx => writingDown (fun _ o _ => .committed tx o) (p.commit tx)
  rollback := fun tx => writingDown (fun _ o _ => .rolledBack tx o) (p.rollback tx)

/-- The work with every transaction that it is done in written down. -/
def chronicledWork (work : T → Act σ α) (tx : T) : Act (Chronicle σ T α) α :=
  writingDown (fun s o _ => .worked tx s o) (work tx)

/-- The operation over a state with a chronicle. -/
def Operation.chronicled (op : Operation σ) : Operation (Chronicle σ T α) where
  name := op.name
  budget := op.budget
  policy := op.policy
  draw := op.draw
  interrupted := fun s => op.interrupted s.base
  note := fun s => { s with base := op.note s.base }

/-- Work in one transaction, with its chronicle. -/
def TxProvider.performChronicled (p : TxProvider σ T) (micros : σ → Nat) (work : T → Act σ α) :
    Act (Chronicle σ T α) α :=
  p.chronicled.perform (fun s => micros s.base) (chronicledWork work)

/-- Work in transactions as an operation, with its chronicle. -/
def TxProvider.repeatChronicled [Timed σ] (p : TxProvider σ T) (op : Operation σ) (micros : σ → Nat)
    (work : T → Act σ α) : Act (Chronicle σ T α) α :=
  p.chronicled.performRepeatedly op.chronicled (fun s => micros s.base) (chronicledWork work)

/-! ## What holds of attempts -/

/-- The commit time of a transaction that was just opened can be set. -/
def TxProvider.Stamps (p : TxProvider σ T) : Prop :=
  ∀ s tx s' micros, p.openTx.exec s = (.ok tx, s') →
    p.options tx (p.stamp tx micros s') = (p.options tx s').stamped micros

/-- An attempt opens a transaction first of all, and uses no other one. -/
def IsAttempt (events : List (TxEvent σ T α)) : Prop :=
  ∃ o s rest, events = .opened o s :: rest ∧ ∀ e ∈ rest, ∃ tx, o = .ok tx ∧ e.used? = some tx

/-- What can happen in a trial of work in a transaction: every call of the provider or of the work is made
from the state that the one before it has left. -/
inductive Attempted (p : TxProvider σ T) (micros : σ → Nat) (work : T → Act σ α) :
    Trial σ α → List (TxEvent σ T α) → Prop
  /-- No transaction is opened. -/
  | unopened {s s₁ : σ} {f : Failure} (hopen : p.openTx.exec s = (.error f, s₁)) :
    Attempted p micros work ⟨s, .error f, s₁⟩ [.opened (.error f) s₁]
  /-- The work fails and its transaction is rolled back. -/
  | failed {s s₁ s₂ s₃ : σ} {tx : T} {f : Failure} {o : Outcome Unit}
    (hopen : p.openTx.exec s = (.ok tx, s₁))
    (hwork : (work tx).exec (p.stampNow micros tx s₁) = (.error f, s₂))
    (hrollback : (p.rollback tx).exec s₂ = (o, s₃)) :
    Attempted p micros work ⟨s, .error f, s₃⟩ [.opened (.ok tx) s₁,
      .worked tx (p.stampNow micros tx s₁) (.error f), .rolledBack tx o]
  /-- The work succeeds and its transaction cannot be committed. -/
  | uncommitted {s s₁ s₂ s₃ : σ} {tx : T} {a : α} {f : Failure}
    (hopen : p.openTx.exec s = (.ok tx, s₁))
    (hwork : (work tx).exec (p.stampNow micros tx s₁) = (.ok a, s₂))
    (hcommit : (p.commit tx).exec s₂ = (.error f, s₃)) :
    Attempted p micros work ⟨s, .error f, s₃⟩ [.opened (.ok tx) s₁,
      .worked tx (p.stampNow micros tx s₁) (.ok a), .committed tx (.error f)]
  /-- The work succeeds and its transaction is committed. -/
  | committed {s s₁ s₂ s₃ : σ} {tx : T} {a : α}
    (hopen : p.openTx.exec s = (.ok tx, s₁))
    (hwork : (work tx).exec (p.stampNow micros tx s₁) = (.ok a, s₂))
    (hcommit : (p.commit tx).exec s₂ = (.ok (), s₃)) :
    Attempted p micros work ⟨s, .ok a, s₃⟩ [.opened (.ok tx) s₁,
      .worked tx (p.stampNow micros tx s₁) (.ok a), .committed tx (.ok ())]

/-- Trials of work in transactions, each with what happened in it, commit at most once. -/
structure CommitsOnce (p : TxProvider σ T) (micros : σ → Nat) (work : T → Act σ α) (trials : List (Trial σ α))
    (attempts : List (List (TxEvent σ T α))) (result : Outcome α) : Prop where
  /-- Every trial is an attempt, and there are no others. -/
  made : List.Forall₂ (Attempted p micros work) trials attempts
  /-- Every attempt opens a transaction of its own, -/
  fresh : ∀ a ∈ attempts, IsAttempt a
  /-- and the work is done once in every transaction that was opened. -/
  called : ∀ a ∈ attempts, a.filterMap TxEvent.worked? = a.filterMap TxEvent.opened?
  once : (attempts.flatten.filter TxEvent.isCommit).length ≤ 1
  /-- A result is what the work of the last attempt has returned, whose transaction is committed. -/
  value : ∀ a, result = .ok a ↔ ∃ last tx s, attempts.getLast? = some last ∧
    .worked tx s (.ok a) ∈ last ∧ .committed tx (.ok ()) ∈ last
  failure : (∃ f, result = .error f) ↔ ∀ e ∈ attempts.flatten, e.isCommit = false
  /-- Work is done in a transaction with the options that it was opened with and a commit time: the one
  among them, or else the time when it was opened. -/
  stamped : p.Stamps → ∀ a ∈ attempts, ∀ tx s o, .worked tx s o ∈ a → ∃ s₀, .opened (.ok tx) s₀ ∈ a ∧
    p.options tx s = (p.options tx s₀).stamped ((p.options tx s₀).commitTime.getD (micros s₀))

/-- The transaction of an attempt is committed with success or rolled back, unless its commit has failed. -/
def ClosesUnlessCommitFails (events : List (TxEvent σ T α)) : Prop :=
  IsAttempt events ∧ ∀ tx s, .opened (.ok tx) s ∈ events →
    ((.committed tx (.ok ()) ∈ events ∨ ∃ o, .rolledBack tx o ∈ events) ↔
      ∀ f, .committed tx (.error f) ∉ events)

/-! ## One attempt -/

namespace TxProvider

/-! ### What an attempt comes to -/

section

variable {p : TxProvider σ T} {micros : σ → Nat} {work : T → Act σ α} {s s₁ s₂ s₃ : σ} {tx : T}

theorem perform_unopened {f : Failure} (hopen : p.openTx.exec s = (.error f, s₁)) :
    (p.perform micros work).exec s = (.error f, s₁) :=
  Act.exec_bind_error hopen _

/-- The work of a transaction that was opened begins when it has a commit time. -/
theorem perform_opened (hopen : p.openTx.exec s = (.ok tx, s₁)) {o : Outcome α}
    (hwork : (work tx).exec (p.stampNow micros tx s₁) = (o, s₂)) :
    (p.perform micros work).exec s =
      match o with
      | .ok a => (do p.commit tx; return a : Act σ α).exec s₂
      | .error f => (do let _ ← (p.rollback tx).attempt; throw f : Act σ α).exec s₂ := by
  have hattempt : (work tx).attempt.exec (p.stampNow micros tx s₁) = (.ok o, s₂) := by
    rw [Act.exec_attempt, hwork]
  unfold perform
  rw [Act.exec_bind_ok hopen, Act.exec_bind_ok (Act.exec_update ..), Act.exec_bind_ok hattempt]
  cases o <;> rfl

theorem perform_failed (hopen : p.openTx.exec s = (.ok tx, s₁)) {f : Failure}
    (hwork : (work tx).exec (p.stampNow micros tx s₁) = (.error f, s₂)) {o : Outcome Unit}
    (hrollback : (p.rollback tx).exec s₂ = (o, s₃)) :
    (p.perform micros work).exec s = (.error f, s₃) := by
  have hattempt : (p.rollback tx).attempt.exec s₂ = (.ok o, s₃) := by
    rw [Act.exec_attempt, hrollback]
  rw [perform_opened hopen hwork]
  exact Act.exec_bind_ok hattempt _

theorem perform_worked (hopen : p.openTx.exec s = (.ok tx, s₁)) {a : α}
    (hwork : (work tx).exec (p.stampNow micros tx s₁) = (.ok a, s₂)) {o : Outcome Unit}
    (hcommit : (p.commit tx).exec s₂ = (o, s₃)) :
    (p.perform micros work).exec s = (o.map fun _ => a, s₃) := by
  rw [perform_opened hopen hwork]
  cases o with
  | error f => exact Act.exec_bind_error hcommit _
  | ok u => exact Act.exec_bind_ok hcommit _

end

/-! ### What is written down of it -/

variable (p : TxProvider σ T) (micros : σ → Nat) (work : T → Act σ α)

/-- Giving a commit time is no event. -/
theorem stampNow_chronicled (tx : T) (b : σ) (events : List (TxEvent σ T α)) :
    p.chronicled.stampNow (fun s => micros s.base) tx ⟨b, events⟩ = ⟨p.stampNow micros tx b, events⟩ := by
  change (if (p.options tx b).hasCommitTime then _ else _) = _
  unfold stampNow
  split <;> rfl

section

variable {p work} {b b' : σ} {tx : T} (events : List (TxEvent σ T α))

theorem exec_writingDown (event : σ → Outcome β → σ → TxEvent σ T α) {act : Act σ β} {o : Outcome β}
    (h : act.exec b = (o, b')) :
    (writingDown event act).exec ⟨b, events⟩ = (o, ⟨b', events ++ [event b o b']⟩) := by
  unfold writingDown
  rw [Act.exec_of, h]

theorem openTx_chronicled {o : Outcome T} (h : p.openTx.exec b = (o, b')) :
    p.chronicled.openTx.exec ⟨b, events⟩ = (o, ⟨b', events ++ [.opened o b']⟩) :=
  exec_writingDown events (fun _ o s => .opened o s) h

theorem chronicledWork_exec {o : Outcome α} (h : (work tx).exec (p.stampNow micros tx b) = (o, b')) :
    (chronicledWork work tx).exec (p.chronicled.stampNow (fun s => micros s.base) tx ⟨b, events⟩) =
      (o, ⟨b', events ++ [.worked tx (p.stampNow micros tx b) o]⟩) := by
  rw [stampNow_chronicled]
  exact exec_writingDown events (fun s o _ => .worked tx s o) h

theorem commit_chronicled {o : Outcome Unit} (h : (p.commit tx).exec b = (o, b')) :
    (p.chronicled.commit tx).exec ⟨b, events⟩ = (o, ⟨b', events ++ [.committed tx o]⟩) :=
  exec_writingDown events (fun _ o _ => .committed tx o) h

theorem rollback_chronicled {o : Outcome Unit} (h : (p.rollback tx).exec b = (o, b')) :
    (p.chronicled.rollback tx).exec ⟨b, events⟩ = (o, ⟨b', events ++ [.rolledBack tx o]⟩) :=
  exec_writingDown events (fun _ o _ => .rolledBack tx o) h

end

end TxProvider

/-- Options that have a commit time are not changed by giving it to them. -/
theorem TxOptions.stamped_self {o : TxOptions} {micros : Nat} (h : o.commitTime = some micros) :
    o.stamped micros = o := by
  unfold TxOptions.stamped
  rw [← h]

namespace Attempted

variable {p : TxProvider σ T} {micros : σ → Nat} {work : T → Act σ α} {t : Trial σ α}
  {events : List (TxEvent σ T α)}

/-- What can happen in a trial is what work in a transaction comes to. -/
theorem eq_of (h : Attempted p micros work t events) : t = .of (p.perform micros work) t.before := by
  unfold Trial.of
  cases h with
  | unopened hopen => rw [TxProvider.perform_unopened hopen]
  | failed hopen hwork hrollback => rw [TxProvider.perform_failed hopen hwork hrollback]
  | uncommitted hopen hwork hcommit | committed hopen hwork hcommit =>
    rw [TxProvider.perform_worked hopen hwork hcommit]
    rfl

/-- It is also what is written down. -/
theorem chronicled (h : Attempted p micros work t events) (log : List (TxEvent σ T α)) :
    (p.performChronicled micros work).exec ⟨t.before, log⟩ = (t.outcome, ⟨t.after, log ++ events⟩) := by
  unfold TxProvider.performChronicled
  cases h with
  | unopened hopen => exact TxProvider.perform_unopened (TxProvider.openTx_chronicled log hopen)
  | failed hopen hwork hrollback =>
    rw [TxProvider.perform_failed (TxProvider.openTx_chronicled log hopen)
      (TxProvider.chronicledWork_exec micros _ hwork) (TxProvider.rollback_chronicled _ hrollback)]
    simp
  | uncommitted hopen hwork hcommit | committed hopen hwork hcommit =>
    rw [TxProvider.perform_worked (TxProvider.openTx_chronicled log hopen)
      (TxProvider.chronicledWork_exec micros _ hwork) (TxProvider.commit_chronicled _ hcommit)]
    simp [Except.map]

theorem unique {events' : List (TxEvent σ T α)} (h : Attempted p micros work t events) {t' : Trial σ α}
    (h' : Attempted p micros work t' events') (hbefore : t.before = t'.before) : events = events' := by
  have hexec := h.chronicled []
  rw [hbefore, h'.chronicled []] at hexec
  simpa using congrArg (fun r => r.2.events) hexec.symm

theorem isAttempt (h : Attempted p micros work t events) : IsAttempt events := by
  cases h with
  | @unopened s s₁ => exact ⟨_, s₁, [], rfl, by simp⟩
  | failed | uncommitted | committed => exact ⟨_, _, _, rfl, by simp [TxEvent.used?]⟩

theorem called (h : Attempted p micros work t events) :
    events.filterMap TxEvent.worked? = events.filterMap TxEvent.opened? := by
  cases h <;> rfl

/-- An attempt commits nothing exactly if it fails. -/
theorem commits_eq_nil (h : Attempted p micros work t events) :
    events.filter TxEvent.isCommit = [] ↔ ∃ f, t.outcome = .error f := by
  cases h <;> simp [TxEvent.isCommit]

theorem length_commits (h : Attempted p micros work t events) :
    (events.filter TxEvent.isCommit).length ≤ 1 := by
  cases h with
  | unopened | failed | uncommitted => exact Nat.zero_le 1
  | committed => exact Nat.le_refl 1

/-- An attempt has a result if its work has it and its transaction is committed. -/
theorem eq_ok_iff (h : Attempted p micros work t events) (a : α) : t.outcome = .ok a ↔
    ∃ tx s, .worked tx s (.ok a) ∈ events ∧ .committed tx (.ok ()) ∈ events := by
  cases h with
  | unopened | failed | uncommitted => simp
  | committed => simp [eq_comm]

/-- The state that work is done from is given by the opening of its transaction. -/
theorem worked_mem (h : Attempted p micros work t events) {tx : T} {s : σ} {r : Outcome α}
    (hworked : .worked tx s r ∈ events) : ∃ s₀ s₁, p.openTx.exec s₀ = (.ok tx, s₁) ∧
      .opened (.ok tx) s₁ ∈ events ∧ s = p.stampNow micros tx s₁ := by
  cases h with
  | unopened => simp at hworked
  | failed hopen | uncommitted hopen | committed hopen =>
    obtain ⟨rfl, rfl, -⟩ : tx = _ ∧ s = _ ∧ r = _ := by simpa using hworked
    exact ⟨_, _, hopen, List.mem_cons_self, rfl⟩

theorem stamped (h : Attempted p micros work t events) (hp : p.Stamps) {tx : T} {s : σ} {r : Outcome α}
    (hworked : .worked tx s r ∈ events) : ∃ s₀, .opened (.ok tx) s₀ ∈ events ∧
      p.options tx s = (p.options tx s₀).stamped ((p.options tx s₀).commitTime.getD (micros s₀)) := by
  obtain ⟨s₀, s₁, hopened, hmem, rfl⟩ := h.worked_mem hworked
  refine ⟨s₁, hmem, ?_⟩
  unfold TxProvider.stampNow TxOptions.hasCommitTime
  cases htime : (p.options tx s₁).commitTime with
  | none =>
    rw [if_neg (by simp), hp _ _ _ _ hopened]
    rfl
  | some time =>
    rw [if_pos (Option.isSome_some), Option.getD_some, TxOptions.stamped_self htime]

theorem closes (h : Attempted p micros work t events) : ClosesUnlessCommitFails events := by
  refine ⟨h.isAttempt, fun tx s hopened => ?_⟩
  cases h with
  | unopened => simp at hopened
  | failed | uncommitted | committed =>
    obtain ⟨rfl, rfl⟩ : tx = _ ∧ s = _ := by simpa using hopened
    simp

end Attempted

namespace TxProvider

variable (p : TxProvider σ T) (micros : σ → Nat) (work : T → Act σ α)

theorem exists_attempted (s : σ) : ∃ t events, Attempted p micros work t events ∧ t.before = s := by
  cases hopen : p.openTx.exec s with
  | mk o s₁ =>
    cases o with
    | error f => exact ⟨_, _, .unopened hopen, rfl⟩
    | ok tx =>
      cases hwork : (work tx).exec (p.stampNow micros tx s₁) with
      | mk o s₂ =>
        cases o with
        | error f => exact ⟨_, _, .failed hopen hwork rfl, rfl⟩
        | ok a =>
          cases hcommit : (p.commit tx).exec s₂ with
          | mk o s₃ =>
            cases o with
            | error f => exact ⟨_, _, .uncommitted hopen hwork hcommit, rfl⟩
            | ok u => exact ⟨_, _, .committed hopen hwork hcommit, rfl⟩

/-- What happens when work is done in a transaction from a state on. -/
def events (s : σ) : List (TxEvent σ T α) := ((p.performChronicled micros work).exec ⟨s, []⟩).2.events

/-- Work in one transaction is an attempt. -/
theorem attempted_perform (s : σ) :
    Attempted p micros work (.of (p.perform micros work) s) (p.events micros work s) := by
  obtain ⟨t, events, hattempted, rfl⟩ := p.exists_attempted micros work s
  have hevents : p.events micros work t.before = events := by
    unfold TxProvider.events
    rw [hattempted.chronicled, List.nil_append]
  rw [hevents, ← hattempted.eq_of]
  exact hattempted

end TxProvider

/-! ## Attempts of an operation -/

namespace TxProvider

variable (p : TxProvider σ T) (micros : σ → Nat) (work : T → Act σ α)

/-- What happens in trials of work in transactions, one list for each. -/
def attempts (trials : List (Trial σ α)) : List (List (TxEvent σ T α)) :=
  trials.map fun t => p.events micros work t.before

/-- What is written down of trials is what happens in them. -/
def chronicle (r : Recorded σ α) : Chronicle σ T α := ⟨r.base, (p.attempts micros work r.trials).flatten⟩

theorem shows_performChronicled :
    (recording (p.perform micros work)).Shows (p.chronicle micros work) (p.performChronicled micros work) := by
  rintro ⟨b, trials⟩
  have hexec := (p.attempted_perform micros work b).chronicled (p.attempts micros work trials).flatten
  refine hexec.trans ?_
  simp [recording, chronicle, attempts, Trial.of, Act.exec_of]

end TxProvider

section

variable [Timed σ] (p : TxProvider σ T) (op : Operation σ) (micros : σ → Nat) (work : T → Act σ α)

namespace TxProvider

theorem shows_chronicled : Operation.Shows (p.chronicle micros work) op.recorded op.chronicled :=
  ⟨rfl, rfl, rfl, rfl, fun _ => rfl, fun _ => rfl, fun _ => rfl, fun _ _ => rfl⟩

/-- What an operation writes down is what happens in its trials, one after another. -/
theorem repeatChronicled_exec (s : σ) :
    ∃ trials result o s',
      (op.recorded.run (recording (p.perform micros work))).exec ⟨s, []⟩ = (o, ⟨s', trials⟩) ∧
      (p.repeatChronicled op micros work).exec ⟨s, []⟩ = (o, ⟨s', (p.attempts micros work trials).flatten⟩) ∧
      (p.performRepeatedly op micros work).exec s = (o, s') ∧
      op.Ends (p.perform micros work) s trials result ∧ ∀ a, o = .ok a ↔ result = .ok a := by
  obtain ⟨trials, result, o, s', hrecorded, hrun, hends, hresult⟩ := op.run_ends (p.perform micros work) s
  have hshows := (p.shows_chronicled op micros work).run (p.shows_performChronicled micros work) ⟨s, []⟩
  rw [hrecorded] at hshows
  exact ⟨trials, result, o, s', hrecorded, hshows, hrun, hends, hresult⟩

end TxProvider

namespace Operation.Ends

variable {p op micros work} {s : σ} {trials : List (Trial σ α)} {result : Except BackendFailure α}

theorem attempted (h : op.Ends (p.perform micros work) s trials result) :
    ∀ t ∈ trials, Attempted p micros work t (p.events micros work t.before) := by
  intro t ht
  have hattempted := p.attempted_perform micros work t.before
  rwa [← h.made t ht] at hattempted

theorem attempted_mem (h : op.Ends (p.perform micros work) s trials result) {events : List (TxEvent σ T α)}
    (hevents : events ∈ p.attempts micros work trials) : ∃ t ∈ trials, Attempted p micros work t events := by
  obtain ⟨t, ht, rfl⟩ := List.mem_map.mp hevents
  exact ⟨t, ht, h.attempted t ht⟩

theorem getLast?_attempts (h : op.Ends (p.perform micros work) s trials result)
    {events : List (TxEvent σ T α)} (hlast : (p.attempts micros work trials).getLast? = some events) :
    ∃ t, trials.getLast? = some t ∧ Attempted p micros work t events := by
  unfold TxProvider.attempts at hlast
  rw [List.getLast?_map, Option.map_eq_some_iff] at hlast
  obtain ⟨t, ht, rfl⟩ := hlast
  exact ⟨t, ht, h.attempted t (List.mem_of_getLast? ht)⟩

/-- Commits succeed in the last attempt only. -/
theorem commits (h : op.Ends (p.perform micros work) s trials result) :
    (p.attempts micros work trials).flatten.filter TxEvent.isCommit =
      ((p.attempts micros work trials).getLast?.getD []).filter TxEvent.isCommit := by
  rcases List.eq_nil_or_concat trials with rfl | ⟨earlier, last, rfl⟩
  · rfl
  · have hsplit : p.attempts micros work (earlier ++ [last]) =
        p.attempts micros work earlier ++ [p.events micros work last.before] := List.map_append ..
    have hnone : (p.attempts micros work earlier).flatten.filter TxEvent.isCommit = [] := by
      rw [List.filter_flatten, List.flatten_eq_nil_iff, List.forall_mem_map]
      intro events hevents
      obtain ⟨t, ht, rfl⟩ := List.mem_map.mp hevents
      obtain ⟨f, hf⟩ := h.transient t (by simpa using ht)
      exact (h.attempted t (by simp [ht])).commits_eq_nil.mpr ⟨f, (isTemporary_of_transient hf).1⟩
    rw [List.concat_eq_append, hsplit, List.flatten_append, List.filter_append, hnone]
    simp

/-- An operation has the result of its last attempt. -/
theorem eq_ok_iff_attempt (h : op.Ends (p.perform micros work) s trials result) (a : α) :
    result = .ok a ↔ ∃ last tx s, (p.attempts micros work trials).getLast? = some last ∧
      .worked tx s (.ok a) ∈ last ∧ .committed tx (.ok ()) ∈ last := by
  rw [h.eq_ok_iff]
  constructor
  · rintro ⟨t, ht, ha⟩
    have hattempted := h.attempted t (List.mem_of_getLast? ht)
    obtain ⟨tx, s, hworked, hcommitted⟩ := (hattempted.eq_ok_iff a).mp ha
    refine ⟨_, tx, s, ?_, hworked, hcommitted⟩
    unfold TxProvider.attempts
    rw [List.getLast?_map, ht]
    rfl
  · rintro ⟨last, tx, s, hlast, hworked, hcommitted⟩
    obtain ⟨t, ht, hattempted⟩ := h.getLast?_attempts hlast
    exact ⟨t, ht, (hattempted.eq_ok_iff a).mpr ⟨tx, s, hworked, hcommitted⟩⟩

/-- It has none exactly if nothing is committed. -/
theorem commits_eq_nil (h : op.Ends (p.perform micros work) s trials result) :
    (p.attempts micros work trials).flatten.filter TxEvent.isCommit = [] ↔ ∀ a, result ≠ .ok a := by
  rw [h.commits]
  cases hlast : trials.getLast? with
  | none =>
    simp [TxProvider.attempts, List.getLast?_eq_none_iff.mp hlast, h.eq_ok_iff]
  | some t =>
    have hattempted := h.attempted t (List.mem_of_getLast? hlast)
    have hcommits := hattempted.commits_eq_nil
    simp only [TxProvider.attempts, List.getLast?_map, hlast, Option.map_some, Option.getD_some, ne_eq,
      h.eq_ok_iff, Option.some.injEq, exists_eq_left', hcommits]
    cases t.outcome <;> simp

theorem commitsOnce (h : op.Ends (p.perform micros work) s trials result) {o : Outcome α}
    (ho : ∀ a, o = .ok a ↔ result = .ok a) :
    CommitsOnce p micros work trials (p.attempts micros work trials) o where
  made := by
    unfold TxProvider.attempts
    rw [List.forall₂_map_right_iff, List.forall₂_same]
    exact h.attempted
  fresh events hevents := by
    obtain ⟨t, -, hattempted⟩ := h.attempted_mem hevents
    exact hattempted.isAttempt
  called events hevents := by
    obtain ⟨t, -, hattempted⟩ := h.attempted_mem hevents
    exact hattempted.called
  once := by
    rw [h.commits]
    cases hlast : (p.attempts micros work trials).getLast? with
    | none => exact Nat.zero_le _
    | some events =>
      obtain ⟨t, -, hattempted⟩ := h.getLast?_attempts hlast
      exact hattempted.length_commits
  value a := (ho a).trans (h.eq_ok_iff_attempt a)
  failure := by
    have hcommits := h.commits_eq_nil
    simp only [List.filter_eq_nil_iff, Bool.not_eq_true, ne_eq, ← ho] at hcommits
    rw [hcommits]
    cases o <;> simp
  stamped hp events hevents tx s o hworked := by
    obtain ⟨t, -, hattempted⟩ := h.attempted_mem hevents
    exact hattempted.stamped hp hworked

end Operation.Ends

namespace TxProvider

/-- Every call that an operation makes of work in a transaction is an attempt with a transaction that it
opens. Of all their commits at most one succeeds, whatever fails in them and however often they are made,
and it does exactly if the operation has a result. -/
theorem commits_once (s : σ) :
    ∃ trials attempts o s',
      (op.recorded.run (recording (p.perform micros work))).exec ⟨s, []⟩ = (o, ⟨s', trials⟩) ∧
      (p.repeatChronicled op micros work).exec ⟨s, []⟩ = (o, ⟨s', attempts.flatten⟩) ∧
      (p.performRepeatedly op micros work).exec s = (o, s') ∧
      (attempts = [] ↔ op.budget = 0) ∧ CommitsOnce p micros work trials attempts o := by
  obtain ⟨trials, result, o, s', hrecorded, hchronicled, hperformed, hends, hresult⟩ :=
    p.repeatChronicled_exec op micros work s
  refine ⟨trials, _, o, s', hrecorded, hchronicled, hperformed, ?_, hends.commitsOnce hresult⟩
  rw [← hends.untried]
  exact List.map_eq_nil_iff

/-- Work in one transaction, and every attempt of an operation, commits with success or rolls back the
transaction that it opens exactly if no commit of it has failed. -/
theorem closes_unless_commit_fails (s : σ) :
    (∃ events o s', (p.performChronicled micros work).exec ⟨s, []⟩ = (o, ⟨s', events⟩) ∧
      (p.perform micros work).exec s = (o, s') ∧ ClosesUnlessCommitFails events) ∧
    ∃ (attempts : List (List (TxEvent σ T α))) (o : Outcome α) (s' : σ),
      (p.repeatChronicled op micros work).exec ⟨s, []⟩ = (o, ⟨s', attempts.flatten⟩) ∧
      (p.performRepeatedly op micros work).exec s = (o, s') ∧
      ∀ a ∈ attempts, ClosesUnlessCommitFails a := by
  constructor
  · have hattempted := p.attempted_perform micros work s
    exact ⟨_, _, _, hattempted.chronicled [], rfl, hattempted.closes⟩
  · obtain ⟨trials, result, o, s', -, hchronicled, hperformed, hends, -⟩ :=
      p.repeatChronicled_exec op micros work s
    refine ⟨_, o, s', hchronicled, hperformed, fun events hevents => ?_⟩
    obtain ⟨t, -, hattempted⟩ := hends.attempted_mem hevents
    exact hattempted.closes

end TxProvider

end

/-! ## Rehearsed transactions -/

namespace TxRehearsal

variable {script : List ScriptedTx} {o : TxOptions} {r r' : TxRehearsal} {tx : Nat}

theorem opened_of_open (h : (openScripted script o).exec r = (.ok tx, r')) :
    r'.opened.get? tx = some o := by
  unfold openScripted at h
  rw [Act.exec_bind_ok (Act.exec_update ..), Act.exec_bind_ok (Act.exec_asks ..), Act.exec_bind] at h
  split at h
  · cases h
    exact SortedMap.get?_put_self ..
  · cases h

/-- Scripted transactions can be given a commit time. -/
theorem stamps_provider (script : List ScriptedTx) (o : TxOptions) : (provider script o).Stamps := by
  intro r tx r' micros hopen
  have hopened := opened_of_open hopen
  change (((r'.opened.alter tx fun o? => o?.map fun o => o.stamped micros).get? tx).getD .none) =
    ((r'.opened.get? tx).getD .none).stamped micros
  unfold SortedMap.alter
  simp [hopened, SortedMap.get?_put]

theorem exec_logged (call : String) (tx : Nat) (planned : Option Failure) (r : TxRehearsal) :
    ∃ r', (logged call tx planned).exec r = (planned.elim (.ok ()) .error, r') := by
  cases planned <;> exact ⟨_, rfl⟩

theorem exec_open (h : (plan script (r.used + 1)).opening = none) (o : TxOptions) :
    ∃ r', (openScripted script o).exec r = (.ok (r.used + 1), r') := by
  obtain ⟨r', hlogged⟩ := exec_logged "open" (r.used + 1) none { r with used := r.used + 1 }
  unfold openScripted
  rw [Act.exec_bind_ok (Act.exec_update ..), Act.exec_bind_ok (Act.exec_asks ..), h,
    Act.exec_bind_ok hlogged]
  exact ⟨_, rfl⟩

theorem exec_work (h : (plan script tx).work = none) (p : TxProvider TxRehearsal Nat) (r : TxRehearsal) :
    ∃ r', (work p script id tx).exec r = (.ok tx, r') := by
  unfold work
  rw [id, h]
  exact ⟨_, rfl⟩

/-- An attempt whose opening and work are planned to succeed ends with a commit as it is planned. -/
theorem events_of_plan {micros : TxRehearsal → Nat} {t : Trial TxRehearsal Nat}
    {events : List (TxEvent TxRehearsal Nat Nat)}
    (h : Attempted (provider script o) micros (work (provider script o) script id) t events)
    (htx : t.before.used + 1 = tx) (hopening : (plan script tx).opening = none)
    (hwork : (plan script tx).work = none) :
    ∃ s s', events = [.opened (.ok tx) s, .worked tx s' (.ok tx),
      .committed tx ((plan script tx).commit.elim (.ok ()) .error)] := by
  subst htx
  obtain ⟨r₁, hopen⟩ := exec_open hopening o
  obtain ⟨r₂, hworked⟩ := exec_work hwork (provider script o)
    ((provider script o).stampNow micros (t.before.used + 1) r₁)
  obtain ⟨r₃, hcommit⟩ := exec_logged "commit" (t.before.used + 1) (plan script (t.before.used + 1)).commit r₂
  cases hend : ((plan script (t.before.used + 1)).commit.elim (.ok ()) .error : Outcome Unit) with
  | ok u =>
    rw [hend] at hcommit
    exact ⟨_, _, h.unique (.committed hopen hworked hcommit) rfl⟩
  | error f =>
    rw [hend] at hcommit
    exact ⟨_, _, h.unique (.uncommitted hopen hworked hcommit) rfl⟩

/-- A script in which the first commit fails for a temporary reason. -/
def busyOnce : List ScriptedTx :=
  [⟨none, none, some (.backend (.temporary "busy" none)), none⟩, ⟨none, none, none, none⟩]

/-- Scripted transactions that are begun without a commit time. -/
def busyProvider : TxProvider TxRehearsal Nat := provider busyOnce .none

/-- The wall time of a rehearsal. -/
def wall (r : TxRehearsal) : Nat := r.clock.wallMicros

/-- The rehearsal of work in these transactions, with a second for it. -/
def busyRun : Outcome Nat × Chronicle TxRehearsal Nat Nat :=
  (busyProvider.repeatChronicled (operation (.ofMillis 1000)) wall (work busyProvider busyOnce id)).exec
    ⟨.start 0, []⟩

end TxRehearsal

open TxRehearsal

/-- The first commit fails, and the second attempt has the result. -/
theorem TxProvider.commits_once_busy : busyProvider.Stamps ∧
    ∃ trials attempts o s',
      ((operation (.ofMillis 1000)).recorded.run
        (recording (busyProvider.perform wall (work busyProvider busyOnce id)))).exec ⟨.start 0, []⟩ =
          (o, ⟨s', trials⟩) ∧
      (busyProvider.repeatChronicled (operation (.ofMillis 1000)) wall
        (work busyProvider busyOnce id)).exec ⟨.start 0, []⟩ = (o, ⟨s', attempts.flatten⟩) ∧
      (busyProvider.performRepeatedly (operation (.ofMillis 1000)) wall
        (work busyProvider busyOnce id)).exec (.start 0) = (o, s') ∧
      CommitsOnce busyProvider wall (work busyProvider busyOnce id) trials attempts o ∧
      o = .ok 2 ∧ ∃ s₁ s₁' s₂ s₂', attempts =
        [[.opened (.ok 1) s₁, .worked 1 s₁' (.ok 1),
            .committed 1 (.error (.backend (.temporary "busy" none)))],
          [.opened (.ok 2) s₂, .worked 2 s₂' (.ok 2), .committed 2 (.ok ())]] := by
  obtain ⟨trials, attempts, o, s', hrecorded, hchronicled, hperformed, -, honce⟩ :=
    commits_once busyProvider (operation (.ofMillis 1000)) wall (work busyProvider busyOnce id) (.start 0)
  have ho : o = .ok 2 := by
    refine Outcome.eq_ok_of_toOption ((congrArg (fun r => r.1.toOption) hrecorded).symm.trans ?_)
    decide +kernel
  have hused : trials.map (fun t => t.before.used) = [0, 1] := by
    refine (congrArg (fun r => r.2.trials.map fun t => t.before.used) hrecorded).symm.trans ?_
    decide +kernel
  obtain ⟨first, rest, rfl, hfirst, hrest⟩ := List.map_eq_cons_iff.mp hused
  obtain ⟨second, rest, rfl, hsecond, hrest⟩ := List.map_eq_cons_iff.mp hrest
  obtain rfl := List.map_eq_nil_iff.mp hrest
  have hmade := honce.made
  simp only [List.forall₂_cons_left_iff, List.forall₂_nil_left_iff] at hmade
  obtain ⟨events, _, hattempt, ⟨events', _, hattempt', rfl, rfl⟩, rfl⟩ := hmade
  obtain ⟨s₁, s₁', rfl⟩ := events_of_plan hattempt (congrArg (· + 1) hfirst) rfl rfl
  obtain ⟨s₂, s₂', rfl⟩ := events_of_plan hattempt' (congrArg (· + 1) hsecond) rfl rfl
  exact ⟨stamps_provider _ _, _, _, o, s', hrecorded, hchronicled, hperformed, honce, ho, _, _, _, _, rfl⟩

/-- The first transaction is left behind although the operation succeeds. -/
theorem unclosed_after_failed_commit : busyRun.1 = .ok 2 ∧
    (∃ s, .opened (.ok 1) s ∈ busyRun.2.events) ∧ .committed 1 (.ok ()) ∉ busyRun.2.events ∧
    ∀ o, .rolledBack 1 o ∉ busyRun.2.events := by
  have hneither : (busyRun.2.events.all fun e => e.used? != some 1 || !(e.isCommit || e.isRollback)) = true := by
    decide +kernel
  rw [List.all_eq_true] at hneither
  refine ⟨?_, ?_, fun h => ?_, fun o h => ?_⟩
  · exact Outcome.eq_ok_of_toOption (by decide +kernel)
  · have hopened : ∃ e ∈ busyRun.2.events, e.opened? = some 1 := by decide +kernel
    obtain ⟨e, hmem, he⟩ := hopened
    obtain ⟨s, rfl⟩ := TxEvent.eq_opened he
    exact ⟨s, hmem⟩
  · exact Bool.noConfusion (hneither _ h)
  · exact Bool.noConfusion (hneither _ h)

end RowGraph
