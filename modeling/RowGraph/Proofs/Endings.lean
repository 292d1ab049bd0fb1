import RowGraph.Proofs.Routing
import RowGraph.Session.Rig

/-!
# Endings of a joint transaction

A joint transaction accepts mutations until it is rolled back or committed with success (`ended_served`).
A commit changes the transaction only in its last step: one that fails leaves it active, although the
locks may be released by then.

* `forwards_until_ended`: when exactly mutations are forwarded, in every run over any backend and any
  lockers, and what a release of the locks means for them.
* `forwarded_after_release`: a mutation that is forwarded after the locks were released.
-/

namespace RowGraph

variable {σ S T L : Type}

namespace JointRequest

/-- Is the request a mutation? -/
def isMutation : JointRequest σ S L → Bool
  | mutate .. | mutateMany _ => true
  | _ => false

/-- Does the request ask for the end of the transaction? -/
def isEnding : JointRequest σ S L → Bool
  | commit | rollback => true
  | _ => false

end JointRequest

namespace Served

/-- The transaction is rolled back, or committed with success. -/
def Ends (m : Served σ S T L) : Prop :=
  m.request = .rollback ∨ m.request = .commit ∧ m.outcome = .ok ()

/-- A commit or a rollback that releases the locks: a rollback of an active transaction does, and a commit
whose inconsistent part is committed. -/
def Releases (c : Checking σ S T L) (m : Served σ S T L) : Prop :=
  m.before.1.ensureActive = .ok () ∧ (m.request = .rollback ∨
    m.request = .commit ∧ ((c.noted.inner.commit m.before.1.inconsistent).exec m.before.2).1 = .ok ())

/-- Everything is verified, now or before an earlier mutation. -/
def IsVerified [Timed σ] (c : Checking σ S T L) (m : Served σ S T L) : Prop :=
  m.before.1.mutationsStarted = true ∨ ((c.noted.verify m.before.1).exec m.before.2).1 = .ok ()

end Served

/-- Mutations are forwarded until the transaction has ended. -/
structure ForwardsUntilEnded [Timed σ] (c : Checking σ S T L) (requests : List (Served σ S T L)) :
    Prop where
  /-- A mutation is forwarded exactly if nothing has ended the transaction and everything is verified. -/
  forwards : ∀ past m rest, requests = past ++ m :: rest →
    (m.Forwards ↔ m.request.isMutation = true ∧ (∀ e ∈ past, ¬ e.Ends) ∧ m.IsVerified c)
  /-- Once the transaction has ended a mutation is invalid and changes nothing. -/
  refused : ∀ past m rest, requests = past ++ m :: rest → (∃ e ∈ past, e.Ends) →
    m.request.isMutation = true → (∃ text, m.outcome = .error (.invalid text)) ∧ m.after = m.before
  /-- After the locks were released a mutation is forwarded only if it was a commit that released them
  and then failed. -/
  released : ∀ past e between m rest, requests = past ++ e :: (between ++ m :: rest) → e.Releases c →
    m.Forwards → e.request = .commit ∧ e.outcome ≠ .ok ()
  /-- A commit that fails leaves the transaction as it was. -/
  failed : ∀ m ∈ requests, m.request = .commit → m.outcome ≠ .ok () → m.after.1 = m.before.1

namespace Checking

/-! ## Committing and rolling back -/

section

variable {c : Checking σ S T L} {j : Joint S T L} {s s' : σ} {α β : Type} {f : Failure}

theorem ensureActive_eq_ok : j.ensureActive = .ok () ↔ j.state = .active := by
  obtain ⟨f, he, hended⟩ | ⟨he, hactive⟩ := ensureActive_cases j
  · simp [he, hended]
  · simp [he, hactive]

/-- What follows a call of the layers below finds the transaction as it was, if it comes to that. -/
theorem below_bind_cases (act : Act σ α) (f : α → Act (Joint S T L × σ) β) (j : Joint S T L) (s : σ) :
    (∃ e s', (below act >>= f).exec (j, s) = (.error e, (j, s'))) ∨
      ∃ a s', (below act >>= f).exec (j, s) = (f a).exec (j, s') := by
  cases he : act.exec s with
  | mk o s' =>
    cases o with
    | error e => exact .inl ⟨e, s', Act.exec_bind_error (exec_below he j) f⟩
    | ok a => exact .inr ⟨a, s', Act.exec_bind_ok (exec_below he j) f⟩

theorem commit_ended (h : j.ensureActive = .error f) : c.commit.exec (j, s) = (.error f, (j, s)) := by
  unfold commit
  rw [Act.exec_bind_ok (exec_joint (j, s))]
  exact Act.exec_bind_error (by rw [Act.exec_ofOutcome, h]) _

theorem rollback_ended (h : j.ensureActive = .error f) : c.rollback.exec (j, s) = (.error f, (j, s)) := by
  unfold rollback
  rw [Act.exec_bind_ok (exec_joint (j, s))]
  exact Act.exec_bind_error (by rw [Act.exec_ofOutcome, h]) _

/-- A commit that fails before it comes to the locks. -/
theorem commit_refused (h : j.ensureActive = .ok ())
    (hcommit : (c.inner.commit j.inconsistent).exec s = (.error f, s')) :
    c.commit.exec (j, s) = (.error f, (j, s')) := by
  unfold commit
  rw [Act.exec_bind_ok (exec_joint (j, s))]
  dsimp only
  rw [h, Act.exec_bind_ok (Act.exec_ofOutcome ..)]
  exact Act.exec_bind_error (exec_below hcommit j) _

/-- A commit fails and leaves the transaction as it is, or commits an active one. -/
theorem commit_cases (c : Checking σ S T L) (j : Joint S T L) (s : σ) :
    (∃ f s', c.commit.exec (j, s) = (.error f, (j, s'))) ∨
      j.state = .active ∧ ∃ s', c.commit.exec (j, s) = (.ok (), ({ j with state := .committed }, s')) := by
  obtain ⟨f, he, -⟩ | ⟨he, hactive⟩ := ensureActive_cases j
  · exact .inl ⟨f, s, commit_ended he⟩
  unfold commit
  rw [Act.exec_bind_ok (exec_joint (j, s))]
  dsimp only
  rw [he, Act.exec_bind_ok (Act.exec_ofOutcome ..)]
  obtain ⟨f, s', h⟩ | ⟨_, s₁, h⟩ := below_bind_cases (c.inner.commit j.inconsistent) _ j s
  · exact .inl ⟨f, s', h⟩
  rw [h]
  obtain ⟨f, s', h⟩ | ⟨_, s₂, h⟩ := below_bind_cases (c.releaseLocks j) _ j s₁
  · exact .inl ⟨f, s', h⟩
  rw [h]
  obtain ⟨f, s', h⟩ | ⟨_, s₃, h⟩ := below_bind_cases (c.inner.commit j.consistent) _ j s₂
  · exact .inl ⟨f, s', h⟩
  · exact .inr ⟨hactive, s₃, h⟩

/-- Whatever fails in a rollback, the transaction is not active after it. -/
theorem state_rollback (c : Checking σ S T L) (j : Joint S T L) (s : σ) :
    (c.rollback.exec (j, s)).2.1.state ≠ .active := by
  obtain ⟨f, he, hended⟩ | ⟨he, -⟩ := ensureActive_cases j
  · rw [rollback_ended he]
    exact hended
  · unfold rollback
    rw [Act.exec_bind_ok (exec_joint (j, s))]
    dsimp only
    rw [he, Act.exec_bind_ok (Act.exec_ofOutcome ..), Act.exec_bind_ok (exec_change ..)]
    intro hactive
    cases hactive

end

/-! ## What leaves a transaction active -/

section

variable {c : Checking σ S T L} {α : Type} {state : JointState}

theorem state_below (act : Act σ α) :
    (below act : Act (Joint S T L × σ) α).Ensures (fun p => p.1.state = state) fun _ => True :=
  fun _ hp => ⟨hp, fun _ _ => trivial⟩

theorem state_change {f : Joint S T L → Joint S T L} (hf : ∀ j, (f j).state = j.state) :
    (change f).Ensures (σ := Joint S T L × σ) (fun p => p.1.state = state) fun _ => True :=
  Act.ensures_update fun p hp => (hf p.1).trans hp

theorem state_active {k : Joint S T L} :
    (Act.ofOutcome k.ensureActive).Ensures (σ := Joint S T L × σ) (fun p => p.1.state = state)
      fun _ => True :=
  Act.ensures_ofOutcome fun _ _ => trivial

theorem state_lock (store : CheckedStore S L) (key column : Bytes) (e : Option Bytes) :
    (c.lock store key column e).Ensures (fun p => p.1.state = state) fun _ => True := by
  unfold lock
  refine (Act.ensures_asks _).bind fun j _ => state_active.bind fun _ _ => ?_
  dsimp only
  split
  · exact Act.ensures_throw _
  · refine Act.Ensures.bind (state_change ?_) fun _ _ => (state_below _).bind fun _ _ => state_change ?_
    · exact fun _ => rfl
    · exact fun _ => rfl

variable [Timed σ]

theorem state_prepare : c.prepare.Ensures (fun p => p.1.state = state) fun _ => True := by
  unfold prepare
  refine (Act.ensures_asks _).bind fun j _ => state_active.bind fun _ _ => ?_
  dsimp only
  split
  · refine (state_below _).bind fun _ _ => (state_below _).bind fun _ _ => ?_
    exact (state_change fun _ => rfl).bind fun _ _ => Act.ensures_pure trivial
  · exact Act.ensures_pure trivial

/-- Only a commit or a rollback changes whether a transaction has ended. -/
theorem state_run [Metered σ] {r : JointRequest σ S L} (hr : r.isEnding = false) :
    (r.run c).Ensures (fun p => p.1.state = state) fun _ => True := by
  cases r with
  | meanwhile change => exact state_below _
  | read store key slice =>
    refine Act.Ensures.bind (P := fun _ => True) ?_ fun _ _ => Act.ensures_pure trivial
    exact (Act.ensures_asks _).bind fun _ _ => state_below _
  | prepare => exact state_prepare.bind fun _ _ => Act.ensures_pure trivial
  | lock store key column e => exact state_lock store key column e
  | mutate store key mutation =>
    exact state_prepare.bind fun _ _ => (Act.ensures_asks _).bind fun _ _ => state_below _
  | mutateMany batch =>
    refine state_prepare.bind fun _ _ => (state_below _).bind fun _ _ => ?_
    exact (Act.ensures_asks _).bind fun _ _ => state_below _
  | commit => cases hr
  | rollback => cases hr

end

end Checking

variable [Timed σ] [Metered σ] {c : Checking σ S T L} {p : Joint S T L × Noted σ T} {m : Served σ S T L}

open Checking

omit [Timed σ] [Metered σ] in
theorem isEnding_noted (r : JointRequest σ S L) :
    (r.noted : JointRequest (Noted σ T) S L).isEnding = r.isEnding := by
  cases r <;> rfl

/-- A transaction is active after a request if it was before and the request does not end it. -/
theorem ended_served (r : JointRequest σ S L) :
    (r.served c p).after.1.state = .active ↔ p.1.state = .active ∧ ¬ (r.served c p).Ends := by
  obtain ⟨j, s⟩ := p
  by_cases hr : r.isEnding = true
  · cases r with
    | commit =>
      obtain ⟨f, s', h⟩ | ⟨hactive, s', h⟩ := commit_cases c.noted j s
      · rw [served_eq (r := .commit) h]
        simp [Served.Ends]
      · rw [served_eq (r := .commit) h]
        simp [Served.Ends]
    | rollback =>
      have hstate : (JointRequest.served c (j, s) .rollback).after.1.state ≠ .active :=
        state_rollback c.noted j s
      have hends : (JointRequest.served c (j, s) .rollback).Ends := .inl rfl
      simp [hstate, hends]
    | _ => cases hr
  · have hnot : (r.noted : JointRequest (Noted σ T) S L).isEnding = false := by
      rw [isEnding_noted]
      exact Bool.eq_false_iff.mpr hr
    have hstate : (r.served c (j, s)).after.1.state = j.state := (state_run hnot (j, s) rfl).1
    have hends : ¬ (r.served c (j, s)).Ends := by
      rintro (h | ⟨h, -⟩)
      · exact hr (by rw [show r = .rollback from h]; rfl)
      · exact hr (by rw [show r = .commit from h]; rfl)
    rw [hstate]
    simp [hends]

/-- A transaction is active as long as no request has ended it. -/
theorem active_iff (hactive : p.1.state = .active) (rs : List (JointRequest σ S L)) :
    (finish c rs p).1.state = .active ↔ ∀ e ∈ serve c rs p, ¬ e.Ends := by
  refine serve_invariant (c := c) (p := p)
    (I := fun past q => q.1.state = .active ↔ ∀ e ∈ past, ¬ e.Ends) ?_ (fun past q r h => ?_) rs
  · simp [hactive]
  · rw [ended_served, h]
    simp only [List.forall_mem_append, List.forall_mem_singleton]

/-! ## What is forwarded -/

/-- A mutation prepares first and is then forwarded. -/
theorem run_mutation {r : JointRequest σ S L} (hr : r.isMutation = true) :
    ∃ f : Bool → Act (Joint S T L × Noted σ T) Unit,
      r.noted.run c.noted = c.noted.prepare >>= f ∧
        ∀ b j s, ((f b).exec (j, s)).2.2.forwarded = s.forwarded ++ [j.writer] := by
  cases r with
  | mutate store key mutation =>
    refine ⟨fun _ => do
      let j ← joint
      below (c.noted.inner.mutate store.store key mutation j.writer), rfl, fun _ _ _ => rfl⟩
  | mutateMany batch =>
    refine ⟨fun b => do
      below (Act.update (count fun m => m.countBatch b))
      let j ← joint
      below (c.noted.inner.mutateMany batch j.writer), rfl, fun _ _ _ => rfl⟩
  | _ => cases hr

omit [Metered σ] in
/-- Preparing succeeds if the transaction is active and everything is verified. -/
theorem prepare_of_verified {j : Joint S T L} {s : Noted σ T} (hactive : j.ensureActive = .ok ())
    (hverified : j.mutationsStarted = true ∨ ((c.noted.verify j).exec s).1 = .ok ()) :
    ∃ b j' s', c.noted.prepare.exec (j, s) = (.ok b, (j', s')) ∧ s'.forwarded = s.forwarded := by
  cases hstarted : j.mutationsStarted with
  | true => exact ⟨_, j, s, prepare_started hactive hstarted, rfl⟩
  | false =>
    rw [hstarted] at hverified
    have hverify := hverified.resolve_left (by simp)
    have hkeep := forwarded_verify c j s
    have hexec := prepare_first (c := c.noted) (s := s) hactive hstarted
    cases hv : (c.noted.verify j).exec s with
    | mk o s' =>
      rw [hv] at hexec hkeep hverify
      dsimp only at hverify
      subst hverify
      exact ⟨_, _, s', hexec, hkeep⟩

theorem forwards_iff (r : JointRequest σ S L) : (r.served c p).Forwards ↔
    r.isMutation = true ∧ p.1.state = .active ∧ (r.served c p).IsVerified c := by
  constructor
  · intro hforwards
    have hmutation : r.isMutation = true := by
      -- Of the requests that are checked only the preparation forwards nothing.
      cases r with
      | mutate store key mutation => rfl
      | mutateMany batch => rfl
      | prepare =>
        refine absurd ?_ hforwards
        obtain ⟨j, s⟩ := p
        obtain ⟨f, s', h, hkeep⟩ | ⟨s', h, hkeep, -⟩ := prepare_cases c j s
        · rw [served_eq (r := .prepare) (Act.exec_bind_error h _)]
          exact hkeep
        · rw [served_eq (r := .prepare) (Act.exec_bind_ok h _)]
          exact hkeep
      | _ => cases ((effect_served c p _).of_forwards hforwards).1
    obtain ⟨-, hactive, hverified, -⟩ := (effect_served c p r).of_forwards hforwards
    exact ⟨hmutation, ensureActive_eq_ok.mp hactive, hverified⟩
  · rintro ⟨hmutation, hactive, hverified⟩
    obtain ⟨j, s⟩ := p
    obtain ⟨f, hrun, hf⟩ := run_mutation (c := c) hmutation
    obtain ⟨b, j', s', hprepare, hkeep⟩ :=
      prepare_of_verified (ensureActive_eq_ok.mpr hactive) hverified
    have hexec : (r.noted.run c.noted).exec (j, s) = (f b).exec (j', s') := by
      rw [hrun]
      exact Act.exec_bind_ok hprepare _
    unfold Served.Forwards
    change ((r.noted.run c.noted).exec (j, s)).2.2.forwarded ≠ s.forwarded
    rw [hexec, hf, hkeep]
    simp [JointRequest.served]

/-- A mutation of a transaction that has ended. -/
theorem mutation_ended {r : JointRequest σ S L} (hr : r.isMutation = true) (hended : p.1.state ≠ .active) :
    (∃ text, (r.served c p).outcome = .error (.invalid text)) ∧ (r.served c p).after = p := by
  obtain ⟨j, s⟩ := p
  obtain ⟨f, hrun, -⟩ := run_mutation (c := c) hr
  have hinvalid : ∃ text, j.ensureActive = .error (.invalid text) := by
    unfold Joint.ensureActive
    cases hstate : j.state with
    | active => exact absurd hstate hended
    | committed => exact ⟨_, rfl⟩
    | rolledBack => exact ⟨_, rfl⟩
  obtain ⟨text, htext⟩ := hinvalid
  have hexec : (r.noted.run c.noted).exec (j, s) = (.error (.invalid text), (j, s)) := by
    rw [hrun]
    exact Act.exec_bind_error (prepare_ended htext) _
  rw [served_eq hexec]
  exact ⟨⟨text, rfl⟩, rfl⟩

omit [Timed σ] [Metered σ] in
theorem releases_ends (h : m.Releases c) (hnot : ¬ m.Ends) :
    m.request = .commit ∧ m.outcome ≠ .ok () := by
  obtain ⟨-, hrollback | ⟨hcommit, -⟩⟩ := h
  · exact absurd (.inl hrollback) hnot
  · exact ⟨hcommit, fun hok => hnot (.inr ⟨hcommit, hok⟩)⟩

theorem commit_failed {r : JointRequest σ S L} (hr : r = .commit)
    (hfailed : (r.served c p).outcome ≠ .ok ()) : (r.served c p).after.1 = p.1 := by
  subst hr
  obtain ⟨j, s⟩ := p
  obtain ⟨f, s', h⟩ | ⟨-, s', h⟩ := commit_cases c.noted j s
  · rw [served_eq (r := .commit) h]
  · rw [served_eq (r := .commit) h] at hfailed
    exact absurd rfl hfailed

/-- In every run of a joint transaction mutations are forwarded until it has ended, over any backend
and any lockers, whichever of their calls fail and whatever others do between the requests. -/
theorem forwards_until_ended (c : Checking σ S T L) (o : TxOptions) (inconsistent consistent : T) (s : σ)
    (rs : List (JointRequest σ S L)) :
    ForwardsUntilEnded c (serve c rs (.new o inconsistent consistent, ⟨s, []⟩)) := by
  have hforwards : ∀ past m rest,
      serve c rs (.new o inconsistent consistent, ⟨s, []⟩) = past ++ m :: rest →
      (m.Forwards ↔ m.request.isMutation = true ∧ (∀ e ∈ past, ¬ e.Ends) ∧ m.IsVerified c) := by
    intro past m rest hsplit
    obtain ⟨rs₁, r, rs₂, rfl, rfl, -⟩ := exists_of_serve hsplit
    rw [forwards_iff, active_iff rfl]
    rfl
  refine ⟨hforwards, ?_, ?_, ?_⟩
  · rintro past m rest hsplit ⟨e, he, hends⟩ hmutation
    obtain ⟨rs₁, r, rs₂, rfl, rfl, -⟩ := exists_of_serve hsplit
    refine mutation_ended hmutation fun hactive => ?_
    exact (active_iff rfl rs₁).mp hactive e he hends
  · intro past e between m rest hsplit hreleases hm
    refine releases_ends hreleases fun hends => ?_
    rw [← List.cons_append, ← List.append_assoc] at hsplit
    obtain ⟨-, hnone, -⟩ := (hforwards _ _ _ hsplit).mp hm
    exact hnone e (by simp) hends
  · intro m hm hcommit hfailed
    obtain ⟨past, rest, hsplit⟩ := List.append_of_mem hm
    obtain ⟨rs₁, r, rs₂, -, rfl, -⟩ := exists_of_serve hsplit
    exact commit_failed hcommit hfailed

/-! ## A commit that fails halfway -/

namespace HalfCommit

/-- The checking layer over memory. -/
def checking : Checking (Watched Local) StoreHandle TxHandle String :=
  Rig.checking Memory.defaultFeatures .steady

def rows : CheckedStore StoreHandle String := ⟨"rows", ⟨0, "rows"⟩, "rows" ++ checking.suffix, 0⟩

/-- Both parts are begun. The first commit is planned to succeed, the second one to fail. -/
def base : Watched Local :=
  ((checking.begun .none).exec (.new .new)).2.plan .commit
    [none, some (.backend (.temporary "unreachable" none))]

/-- A column is locked, and mutated after a commit. -/
def requests : List (JointRequest (Watched Local) StoreHandle String) :=
  [.lock rows [1] [1] none, .commit, .mutate rows [1] ⟨[⟨[1], [7]⟩], []⟩]

/-- What becomes of the requests. -/
def served : List (Served (Watched Local) StoreHandle TxHandle String) :=
  serve checking requests (.new .none ⟨1⟩ ⟨2⟩, ⟨base, []⟩)

/-- The owner of the lock on the column. -/
def owner? (s : Watched Local) : Option Nat := s.base.lockers.owner? rows.locker ⟨[1], [1]⟩

end HalfCommit

/-- The consistent part cannot be committed after the lock was released, and the next mutation goes
through without a lock: not every transaction that has released its locks writes nothing more. -/
theorem forwarded_after_release :
    (HalfCommit.served.map fun m => HalfCommit.owner? m.after.2.base) = [some 2, none, none] ∧
    ¬ ∀ past e between m rest, HalfCommit.served = past ++ e :: (between ++ m :: rest) →
      e.Releases HalfCommit.checking → ¬ m.Forwards := by
  refine ⟨by decide +kernel, fun hall => ?_⟩
  have hactive : (HalfCommit.served[1]).before.1.ensureActive = .ok () := rfl
  have hcommitted : ((HalfCommit.checking.noted.inner.commit
      (HalfCommit.served[1]).before.1.inconsistent).exec (HalfCommit.served[1]).before.2).1 = .ok () := rfl
  have hreleases : (HalfCommit.served[1]).Releases HalfCommit.checking :=
    ⟨hactive, .inr ⟨rfl, hcommitted⟩⟩
  have hforwards : (HalfCommit.served[2]).Forwards := by
    unfold Served.Forwards
    decide +kernel
  exact hall [HalfCommit.served[0]] HalfCommit.served[1] [] HalfCommit.served[2] [] rfl hreleases hforwards

end RowGraph
