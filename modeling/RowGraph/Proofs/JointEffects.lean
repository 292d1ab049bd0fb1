import RowGraph.Proofs.JointRequests
import RowGraph.Proofs.Lookup

/-!
# What a request to a joint transaction does

Every request has one of four effects (`Effect`, `effect_served`): nothing but that the transaction may
end, a lock is refused, a lock is taken, or everything is checked and a mutation may be forwarded.  A request
that cannot be verified leaves no trace in the transaction (`served_unverified`).
-/

namespace RowGraph

/-- The stores of a transaction that has taken note of a lock: the first one of a name stays. -/
theorem Joint.get?_expect {S T L : Type} (j : Joint S T L) (store : String) (opened : S × L)
    (target : LockTarget) (e : Option Bytes) (name : String) :
    (j.expect store opened target e).stores.get? name =
      if name = store ∧ j.stores.get? name = none then some opened else j.stores.get? name := by
  unfold Joint.expect SortedMap.contains
  dsimp only
  cases hs : j.stores.get? store with
  | none =>
    rw [if_neg (by simp), SortedMap.get?_put]
    by_cases hn : name = store
    · subst hn
      rw [if_pos rfl, if_pos ⟨rfl, hs⟩]
    · rw [if_neg hn, if_neg fun h => hn h.1]
  | some other =>
    rw [Option.isSome_some, if_pos rfl, if_neg]
    rintro ⟨rfl, hnone⟩
    rw [hs] at hnone
    cases hnone

namespace Checking

section

variable {σ S T L : Type} {c : Checking σ S T L} {j : Joint S T L} {s s' : σ} {α : Type}

theorem exec_joint (p : Joint S T L × σ) :
    (joint : Act (Joint S T L × σ) _).exec p = (.ok p.1, p) := rfl

theorem exec_below {act : Act σ α} {o : Outcome α} (h : act.exec s = (o, s')) (j : Joint S T L) :
    (below act).exec (j, s) = (o, (j, s')) := by
  unfold below
  rw [Act.exec_on, h]

theorem exec_change (f : Joint S T L → Joint S T L) (p : Joint S T L × σ) :
    (change f).exec p = (.ok (), (f p.1, p.2)) := rfl

theorem ensureActive_cases (j : Joint S T L) :
    (∃ f, j.ensureActive = .error f ∧ j.state ≠ .active) ∨
      j.ensureActive = .ok () ∧ j.state = .active := by
  unfold Joint.ensureActive
  cases j.state with
  | active => exact .inr ⟨rfl, rfl⟩
  | committed => exact .inl ⟨_, rfl, by simp⟩
  | rolledBack => exact .inl ⟨_, rfl, by simp⟩

/-- A lock that comes in time: the attempt is noted, and the lock with its expectation if the locker
grants it. Otherwise nothing changes. -/
theorem lock_cases (c : Checking σ S T L) (j : Joint S T L) (s : σ) (store : CheckedStore S L)
    (key column : Bytes) (e : Option Bytes) :
    (∃ f, (c.lock store key column e).exec (j, s) = (.error f, (j, s)) ∧
        ¬ (j.ensureActive = .ok () ∧ j.mutationsStarted = false)) ∨
      (j.ensureActive = .ok () ∧ j.mutationsStarted = false) ∧
        (c.lock store key column e).exec (j, s) =
          match (c.locks.write store.locker ⟨key, column⟩ (c.inner.txId j.consistent s)).exec s with
          | (.error f, s') => (.error f, ({ j with lockAttempted := true }, s'))
          | (.ok _, s') => (.ok (), (({ j with lockAttempted := true } : Joint S T L).expect
              store.name (store.store, store.locker) ⟨key, column⟩ e, s')) := by
  unfold lock
  rw [Act.exec_bind_ok (exec_joint (j, s))]
  dsimp only
  obtain ⟨f, he, -⟩ | ⟨he, -⟩ := ensureActive_cases j
  · exact .inl ⟨f, Act.exec_bind_error (by rw [Act.exec_ofOutcome, he]) _, by rw [he]; simp⟩
  rw [he, Act.exec_bind_ok (Act.exec_ofOutcome ..)]
  by_cases hstarted : j.mutationsStarted = true
  · rw [if_pos hstarted]
    exact .inl ⟨tooLate, rfl, by simp [hstarted]⟩
  · rw [if_neg hstarted, Act.exec_bind_ok (exec_change ..)]
    refine .inr ⟨⟨rfl, Bool.eq_false_iff.mpr hstarted⟩, ?_⟩
    have hwrite : (Act.asks (c.inner.txId j.consistent) >>= fun owner =>
        c.locks.write store.locker ⟨key, column⟩ owner).exec s =
          (c.locks.write store.locker ⟨key, column⟩ (c.inner.txId j.consistent s)).exec s :=
      Act.exec_bind_ok (Act.exec_asks ..) _
    cases hw : (c.locks.write store.locker ⟨key, column⟩ (c.inner.txId j.consistent s)).exec s with
    | mk o s' =>
      rw [hw] at hwrite
      cases o with
      | error f => exact Act.exec_bind_error (exec_below hwrite _) _
      | ok u => exact Act.exec_bind_ok (exec_below hwrite _) _

end

section

variable {σ S T L α : Type} {c : Checking σ S T L} {j : Joint S T L} {log : List T}

theorem ensures_checkLocks (c : Checking σ S T L) (j : Joint S T L) (log : List T) :
    (c.noted.checkLocks j).Ensures (fun s => s.forwarded = log) fun _ => True := by
  refine (Act.ensures_forM (R := fun _ => True) fun _ _ => ?_).mono fun _ _ => trivial
  exact (Act.ensures_asks _).bind fun _ _ => Noted.ensures_lift _ _

/-- But for its state the transaction is as it was, and nothing was forwarded. -/
def Untouched (j : Joint S T L) (log : List T) (p : Joint S T L × Noted σ T) : Prop :=
  (∃ state, p.1 = { j with state := state }) ∧ p.2.forwarded = log

theorem untouched_below {act : Act (Noted σ T) α} (h : act.Ensures (fun s => s.forwarded = log) fun _ => True) :
    (below act).Ensures (Untouched j log) fun _ => True :=
  h.on (fun _ hp => hp.2) fun _ _ hp ht => ⟨hp.1, ht⟩

theorem untouched_state (state : JointState) :
    (change fun j => { j with state := state }).Ensures (σ := Joint S T L × Noted σ T) (Untouched j log) fun _ => True :=
  Act.ensures_update fun _ hp => by
    obtain ⟨⟨state', hj⟩, hlog⟩ := hp
    exact ⟨⟨state, by rw [hj]⟩, hlog⟩

theorem untouched_active {k : Joint S T L} :
    (Act.ofOutcome k.ensureActive).Ensures (Untouched (σ := σ) j log) fun _ => True :=
  Act.ensures_ofOutcome fun _ _ => trivial

theorem ensures_releaseLocks (k : Joint S T L) :
    (c.noted.releaseLocks k).Ensures (fun s => s.forwarded = log) fun _ => True := by
  refine (Act.ensures_mapM fun _ _ => ?_).bind fun _ _ => Act.ensures_ofOutcome fun _ _ => trivial
  exact (Act.ensures_asks _).bind fun _ _ => (Noted.ensures_lift _ _).attempt

theorem untouched_read (store : CheckedStore S L) (key : Bytes) (slice : Slice) :
    (c.noted.read store key slice).Ensures (Untouched j log) fun _ => True :=
  (Act.ensures_asks _).bind fun _ _ => untouched_below (Noted.ensures_lift _ _)

theorem untouched_commit : c.noted.commit.Ensures (Untouched j log) fun _ => True := by
  unfold commit
  refine (Act.ensures_asks _).bind fun k _ => untouched_active.bind fun _ _ => ?_
  refine (untouched_below (Noted.ensures_lift _ _)).bind fun _ _ => ?_
  refine (untouched_below (ensures_releaseLocks k)).bind fun _ _ => ?_
  exact (untouched_below (Noted.ensures_lift _ _)).bind fun _ _ => untouched_state _

theorem untouched_rollback : c.noted.rollback.Ensures (Untouched j log) fun _ => True := by
  unfold rollback
  refine (Act.ensures_asks _).bind fun k _ => untouched_active.bind fun _ _ => ?_
  refine (untouched_state _).bind fun _ _ => ?_
  refine (untouched_below (ensures_releaseLocks k)).attempt.bind fun _ _ => ?_
  refine (untouched_below (Noted.ensures_lift _ _)).attempt.bind fun _ _ => ?_
  refine (untouched_below (Noted.ensures_lift _ _)).attempt.bind fun _ _ => ?_
  exact Act.ensures_ofOutcome fun _ _ => trivial

end

section

variable {σ S T L : Type} {c : Checking σ S T L} {j : Joint S T L} {s : σ} [Timed σ]

/-- Makes sure that all locks are held and every locked column holds what it is expected to. -/
def verify (c : Checking σ S T L) (j : Joint S T L) : Act σ Unit := do
  c.checkLocks j
  c.checkValues j

theorem prepare_ended {f : Failure} (h : j.ensureActive = .error f) :
    c.prepare.exec (j, s) = (.error f, (j, s)) := by
  unfold prepare
  rw [Act.exec_bind_ok (exec_joint _)]
  dsimp only
  exact Act.exec_bind_error (by rw [Act.exec_ofOutcome, h]) _

theorem prepare_started (h : j.ensureActive = .ok ()) (hstarted : j.mutationsStarted = true) :
    c.prepare.exec (j, s) = (.ok j.hasAnyLocks, (j, s)) := by
  unfold prepare
  rw [Act.exec_bind_ok (exec_joint _)]
  dsimp only
  rw [h, hstarted]
  rfl

/-- Before the first mutation everything is verified, and a failure leaves the transaction as it is. -/
theorem prepare_first (h : j.ensureActive = .ok ()) (hstarted : j.mutationsStarted = false) :
    c.prepare.exec (j, s) =
      match (c.verify j).exec s with
      | (.error f, s') => (.error f, (j, s'))
      | (.ok _, s') => (.ok j.hasAnyLocks, ({ j with mutationsStarted := true }, s')) := by
  unfold prepare verify
  rw [Act.exec_bind_ok (exec_joint _)]
  dsimp only
  rw [h, hstarted, Act.exec_bind_ok (Act.exec_ofOutcome ..), Act.exec_bind (c.checkLocks j)]
  cases hl : (c.checkLocks j).exec s with
  | mk o s₁ =>
    cases o with
    | error f => exact Act.exec_bind_error (exec_below hl j) _
    | ok u =>
      refine (Act.exec_bind_ok (exec_below hl j) _).trans ?_
      dsimp only
      cases hv : (c.checkValues j).exec s₁ with
      | mk o s₂ =>
        cases o with
        | error f => exact Act.exec_bind_error (exec_below hv j) _
        | ok u => exact Act.exec_bind_ok (exec_below hv j) _

end

section

variable {σ S T L : Type} [Timed σ]

theorem ensures_checkValue (c : Checking σ S T L) (j : Joint S T L) (column : LockedColumn)
    (e : Option Bytes) (log : List T) :
    (c.noted.checkValue j column e).Ensures (fun s => s.forwarded = log) fun _ => True := by
  unfold checkValue
  split
  · refine (Act.ensures_asks _).bind fun draw _ => ?_
    refine Act.Ensures.bind (Operation.run_ensures (Noted.ensures_lift _ _) ?_ ?_) fun entries _ => ?_
    · exact fun _ _ hs => hs
    · exact fun _ hs => hs
    · dsimp only
      split
      · exact Act.ensures_throw _
      · exact Act.ensures_pure trivial
  · exact Act.ensures_throw _

theorem ensures_verify (c : Checking σ S T L) (j : Joint S T L) (log : List T) :
    (c.noted.verify j).Ensures (fun s => s.forwarded = log) fun _ => True := by
  refine (ensures_checkLocks c j log).bind fun _ _ => ?_
  exact (Act.ensures_forM fun _ _ => ensures_checkValue c j _ _ log).mono fun _ _ => trivial

theorem forwarded_verify (c : Checking σ S T L) (j : Joint S T L) (s : Noted σ T) :
    ((c.noted.verify j).exec s).2.forwarded = s.forwarded :=
  (ensures_verify c j s.forwarded s rfl).1

/-- Nothing is forwarded when everything is checked: preparing fails and leaves the transaction as it
is, or it is active and, the first time, everything has been verified. -/
theorem prepare_cases (c : Checking σ S T L) (j : Joint S T L) (s : Noted σ T) :
    (∃ f s', c.noted.prepare.exec (j, s) = (.error f, (j, s')) ∧ s'.forwarded = s.forwarded) ∨
      ∃ s', c.noted.prepare.exec (j, s) =
          (.ok j.hasAnyLocks, ({ j with mutationsStarted := true }, s')) ∧
        s'.forwarded = s.forwarded ∧ j.ensureActive = .ok () ∧
        (j.mutationsStarted = true ∨ ((c.noted.verify j).exec s).1 = .ok ()) := by
  obtain ⟨f, he, -⟩ | ⟨he, -⟩ := ensureActive_cases j
  · exact .inl ⟨f, s, prepare_ended he, rfl⟩
  cases hstarted : j.mutationsStarted with
  | true =>
    refine .inr ⟨s, ?_, rfl, he, .inl rfl⟩
    rw [prepare_started he hstarted]
    cases j
    dsimp only at hstarted
    rw [hstarted]
  | false =>
    have hkeep := forwarded_verify c j s
    have hexec := prepare_first (c := c.noted) (s := s) he hstarted
    cases hv : (c.noted.verify j).exec s with
    | mk o s' =>
      rw [hv] at hkeep hexec
      cases o with
      | error f => exact .inl ⟨f, s', hexec, hkeep⟩
      | ok u => exact .inr ⟨s', hexec, hkeep, he, .inr rfl⟩

end

end Checking

variable {σ S T L : Type} [Timed σ]

/-- What a request can do. -/
inductive Effect (c : Checking σ S T L) (m : Served σ S T L) : Prop where
  /-- Nothing, but that the transaction may end. -/
  | kept (hjoint : ∃ state, m.after.1 = { m.before.1 with state := state })
    (hforwarded : m.after.2.forwarded = m.before.2.forwarded)
    (hasks : ¬ m.AsksInTime) (hlock : m.lock? = none)
  /-- A lock is asked for and refused. -/
  | refused (hjoint : m.after.1 = { m.before.1 with lockAttempted := true })
    (hforwarded : m.after.2.forwarded = m.before.2.forwarded)
    (hasks : m.AsksInTime) (hlock : m.lock? = none)
  /-- A lock is taken. -/
  | locked {store : CheckedStore S L} {target : LockTarget} {e : Option Bytes}
    (hjoint : m.after.1 = ({ m.before.1 with lockAttempted := true } : Joint S T L).expect store.name
      (store.store, store.locker) target e)
    (hforwarded : m.after.2.forwarded = m.before.2.forwarded)
    (hasks : m.AsksInTime) (hlock : m.lock? = some (store, target, e))
  /-- Everything is checked, now or before, and a mutation may be forwarded. -/
  | checked (hchecked : m.request.isChecked = true) (hactive : m.before.1.ensureActive = .ok ())
    (hverified : m.before.1.mutationsStarted = true ∨
      ((c.noted.verify m.before.1).exec m.before.2).1 = .ok ())
    (hjoint : m.after.1 = { m.before.1 with mutationsStarted := true })
    (hforwarded : m.after.2.forwarded = m.before.2.forwarded ∨
      m.after.2.forwarded = m.before.2.forwarded ++ [m.before.1.writer])
    (hasks : ¬ m.AsksInTime) (hlock : m.lock? = none)

section

variable [Metered σ] {c : Checking σ S T L} {p p' : Joint S T L × Noted σ T} {o : Outcome Unit}

open Checking

theorem served_eq {r : JointRequest σ S L} (h : (r.noted.run c.noted).exec p = (o, p')) :
    r.served c p = ⟨r, o, p, p'⟩ := by
  unfold JointRequest.served
  rw [h]

omit [Timed σ] [Metered σ] in
theorem not_asksInTime {m : Served σ S T L} (h : m.request.isLock = false) :
    ¬ m.AsksInTime ∧ m.lock? = none := by
  refine ⟨fun hasks => by simp [hasks.1] at h, ?_⟩
  unfold Served.lock?
  split
  · rename_i hr _
    rw [hr] at h
    cases h
  · rfl

theorem effect_of_ensures {r : JointRequest σ S L}
    (h : (r.noted.run c.noted).Ensures (Untouched p.1 p.2.forwarded) fun _ => True)
    (hlock : r.isLock = false) : Effect c (r.served c p) := by
  obtain ⟨hjoint, hforwarded⟩ := (h p ⟨⟨p.1.state, rfl⟩, rfl⟩).1
  exact .kept hjoint hforwarded (not_asksInTime hlock).1 (not_asksInTime hlock).2

theorem effect_lock (store : CheckedStore S L) (key column : Bytes) (e : Option Bytes) :
    Effect c ((JointRequest.lock store key column e).served c p) := by
  obtain ⟨j, s⟩ := p
  obtain ⟨f, he, hlate⟩ | ⟨hasks, he⟩ := lock_cases c.noted j s store key column e
  · rw [served_eq (r := .lock store key column e) he]
    exact .kept ⟨j.state, rfl⟩ rfl (fun h => hlate h.2) rfl
  · have hwrite := Noted.ensures_lift
      (c.locks.write store.locker ⟨key, column⟩ (c.inner.txId j.consistent s.base)) s.forwarded s rfl
    change ((c.noted.locks.write store.locker ⟨key, column⟩
      (c.noted.inner.txId j.consistent s)).exec s).2.forwarded = _ ∧ _ at hwrite
    cases hw : (c.noted.locks.write store.locker ⟨key, column⟩ (c.noted.inner.txId j.consistent s)).exec s with
    | mk o s' =>
      rw [hw] at he hwrite
      cases o with
      | error f =>
        rw [served_eq (r := .lock store key column e) he]
        exact .refused rfl hwrite.1 ⟨rfl, hasks⟩ rfl
      | ok u =>
        rw [served_eq (r := .lock store key column e) he]
        exact .locked rfl hwrite.1 ⟨rfl, hasks⟩ rfl

/-- A request that is checked prepares first and then forwards at most one mutation, in the transaction
that mutations go through. -/
theorem run_checked {r : JointRequest σ S L} (hr : r.isChecked = true) :
    ∃ f : Bool → Act (Joint S T L × Noted σ T) Unit,
      r.noted.run c.noted = c.noted.prepare >>= f ∧ ∀ b j s, ((f b).exec (j, s)).2.1 = j ∧
        (((f b).exec (j, s)).2.2.forwarded = s.forwarded ∨
          ((f b).exec (j, s)).2.2.forwarded = s.forwarded ++ [j.writer]) := by
  cases r with
  | prepare => exact ⟨fun _ => pure (), rfl, fun _ _ _ => ⟨rfl, .inl rfl⟩⟩
  | mutate store key mutation =>
    refine ⟨fun _ => do
      let j ← joint
      below (c.noted.inner.mutate store.store key mutation j.writer), rfl, fun _ _ _ => ⟨rfl, .inr rfl⟩⟩
  | mutateMany batch =>
    refine ⟨fun b => do
      below (Act.update (count fun m => m.countBatch b))
      let j ← joint
      below (c.noted.inner.mutateMany batch j.writer), rfl, fun _ _ _ => ⟨rfl, .inr rfl⟩⟩
  | _ => cases hr

omit [Timed σ] [Metered σ] in
theorem isLock_eq_false {r : JointRequest σ S L} (hr : r.isChecked = true) : r.isLock = false := by
  cases r with
  | lock => cases hr
  | _ => rfl

theorem effect_checked {r : JointRequest σ S L} (hr : r.isChecked = true) : Effect c (r.served c p) := by
  obtain ⟨j, s⟩ := p
  obtain ⟨f, hrun, hf⟩ := run_checked (c := c) hr
  obtain ⟨hasks, hlock?⟩ := not_asksInTime (m := r.served c (j, s)) (isLock_eq_false hr)
  obtain ⟨e, s', he, hkeep⟩ | ⟨s', he, hkeep, hactive, hverified⟩ := prepare_cases c j s
  · have hexec : (r.noted.run c.noted).exec (j, s) = (.error e, (j, s')) := by
      rw [hrun]
      exact Act.exec_bind_error he _
    rw [served_eq hexec] at hasks hlock? ⊢
    exact .kept ⟨j.state, rfl⟩ hkeep hasks hlock?
  · have hexec : (r.noted.run c.noted).exec (j, s) =
        (f j.hasAnyLocks).exec ({ j with mutationsStarted := true }, s') := by
      rw [hrun]
      exact Act.exec_bind_ok he _
    obtain ⟨hjoint, hforwarded⟩ := hf j.hasAnyLocks { j with mutationsStarted := true } s'
    rw [← hexec] at hjoint hforwarded
    rw [hkeep] at hforwarded
    exact .checked hr hactive hverified hjoint hforwarded hasks hlock?

/-- A request that cannot be verified fails as the verification does, and leaves the transaction and
what was forwarded as they are. -/
theorem served_unverified {r : JointRequest σ S L} {f : Failure} (hr : r.isChecked = true)
    (hactive : p.1.ensureActive = .ok ()) (hstarted : p.1.mutationsStarted = false)
    (hverify : ((c.noted.verify p.1).exec p.2).1 = .error f) :
    (r.served c p).outcome = .error f ∧ (r.served c p).after.1 = p.1 ∧
      (r.served c p).after.2.forwarded = p.2.forwarded := by
  obtain ⟨j, s⟩ := p
  obtain ⟨g, hrun, -⟩ := run_checked (c := c) hr
  have hkeep := forwarded_verify c j s
  have hprepare := prepare_first (c := c.noted) (s := s) hactive hstarted
  cases hv : (c.noted.verify j).exec s with
  | mk o s' =>
    rw [hv] at hkeep hprepare hverify
    dsimp only at hverify
    subst hverify
    have hexec : (r.noted.run c.noted).exec (j, s) = (.error f, (j, s')) := by
      rw [hrun]
      exact Act.exec_bind_error hprepare _
    rw [served_eq hexec]
    exact ⟨rfl, rfl, hkeep⟩

/-- Every request has one of the effects. -/
theorem effect_served (c : Checking σ S T L) (p : Joint S T L × Noted σ T) (r : JointRequest σ S L) :
    Effect c (r.served c p) := by
  cases r with
  | meanwhile change =>
    exact effect_of_ensures (Act.ensures_update fun _ hp => hp) rfl
  | read store key slice =>
    exact effect_of_ensures ((untouched_read store key slice).bind fun _ _ => Act.ensures_pure trivial) rfl
  | prepare => exact effect_checked rfl
  | lock store key column e => exact effect_lock store key column e
  | mutate store key mutation => exact effect_checked rfl
  | mutateMany batch => exact effect_checked rfl
  | commit => exact effect_of_ensures untouched_commit rfl
  | rollback => exact effect_of_ensures untouched_rollback rfl

end

end RowGraph
