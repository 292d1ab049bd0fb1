import RowGraph.Proofs.Endings
import RowGraph.Proofs.Expectations
import RowGraph.Proofs.LeaseTable
import RowGraph.Proofs.Repetition

/-!
# Live locks

The locks of a joint transaction are checked first and the columns read again afterwards, which takes
time: between the check and the first mutation a lease may end, and another transaction may take the lock.
What holds when a mutation is forwarded is that every lock was live when the locks were checked, and is
still the transaction's if its lease has not ended since (`checked_live`).

* `LockStep.keeps_finish`: whatever others do with the lockers, an owner keeps its locks until their leases
  end.
* `lease_ended_while_reading`: a mutation that is forwarded when the lease of its lock has ended.
-/

namespace RowGraph

/-- The lock service on a part of the state. -/
def LockService.within {σ τ L : Type} (l : LockService σ L) (get : τ → σ) (set : τ → σ → τ) :
    LockService τ L where
  locker := fun name => (l.locker name).on get fun s t => set t s
  write := fun locker target owner => (l.write locker target owner).on get fun s t => set t s
  check := fun locker owner => (l.check locker owner).on get fun s t => set t s
  release := fun locker owner => (l.release locker owner).on get fun s t => set t s

theorem LockService.exec_write_within {σ τ L : Type} (l : LockService σ L) (get : τ → σ) (set : τ → σ → τ)
    (locker : L) (target : LockTarget) (owner : Nat) (s : τ) :
    ((l.within get set).write locker target owner).exec s =
      (((l.write locker target owner).exec (get s)).1, set s ((l.write locker target owner).exec (get s)).2) :=
  rfl

variable {σ S T : Type}

/-- Time does not go back, and an owner keeps its locks until their leases end. -/
structure Keeps [Timed σ] (get : σ → Local) (owner : Nat) (s s' : σ) : Prop where
  time : now s ≤ now s'
  asked : ∀ locker target, target ∈ ((get s).lockers.table locker).requests owner →
    target ∈ ((get s').lockers.table locker).requests owner
  held : ∀ locker target r, (get s).lockRecord? locker target = some r → r.owner = owner →
    (get s').lockRecord? locker target = some r ∨ r.expires ≤ now s'

/-- The lockers are the same, and time does not go back. -/
def Since [Timed σ] (get : σ → Local) (s s' : σ) : Prop :=
  (get s').lockers = (get s).lockers ∧ now s ≤ now s'

/-- The act leaves the lockers alone and does not turn back the clock. -/
def Bystands [Timed σ] (get : σ → Local) {α : Type} (act : Act σ α) : Prop :=
  ∀ s, Since get s (act.exec s).2

/-- The checking layer takes its locks, which last for a lease, from the lockers in a part of the state.
Nothing else that it calls touches them or turns back the clock. -/
structure Checking.LocksWithin [Timed σ] [Metered σ] (c : Checking σ S T String) (lease : Nanos)
    (get : σ → Local) (set : σ → Local → σ) : Prop where
  locks : c.locks = (Local.locks lease).within get set
  get_set : ∀ s b, get (set s b) = b
  set_get : ∀ s, set s (get s) = s
  clock : ∀ s, now (get s) = now s
  setClock : ∀ s k, (get (Timed.setClock s k)).lockers = (get s).lockers ∧
    Timed.clock (Timed.setClock s k) = k
  count : ∀ f s, Since get s (count f s)
  read : ∀ store key slice tx, Bystands get (c.inner.read store key slice tx)
  mutate : ∀ store key m tx, Bystands get (c.inner.mutate store key m tx)
  mutateMany : ∀ batch tx, Bystands get (c.inner.mutateMany batch tx)
  commit : ∀ tx, Bystands get (c.inner.commit tx)

/-- What others do keeps the locks of the transaction, and locks are asked for in lockers that go by the
names of the stores. -/
def JointRequest.Orderly [Timed σ] (suffix : String) (get : σ → Local) (owner : Nat) :
    JointRequest σ S String → Prop
  | .meanwhile change => ∀ s, Keeps get owner s (change s)
  | .lock store .. => store.locker = store.name ++ suffix
  | _ => True

/-- A commit that fails when it has released the locks. -/
def Served.FailsHalfway {L : Type} (c : Checking σ S T L) (m : Served σ S T L) : Prop :=
  m.Releases c ∧ m.request = .commit ∧ m.outcome ≠ .ok ()

/-- The state in which a mutation is forwarded, when everything is prepared. -/
def Served.sending [Timed σ] {L : Type} (c : Checking σ S T L) (m : Served σ S T L) : σ :=
  (c.noted.prepare.exec m.before).2.2.base

/-- A lock of an owner is live in a state and still held in a later one, unless its lease has ended. -/
def LiveSince [Timed σ] (get : σ → Local) (owner : Nat) (s s' : σ) (locker : String)
    (target : LockTarget) : Prop :=
  ∃ r, (get s).lockRecord? locker target = some r ∧ r.owner = owner ∧ now s < r.expires ∧
    ((get s').lockRecord? locker target = some r ∨ r.expires ≤ now s')

/-- When a mutation is forwarded all locks have been checked and were live, and those whose leases have
not ended since are still held. -/
structure LiveWhenChecked [Timed σ] (c : Checking σ S T String) (get : σ → Local) (owner : Nat)
    (consistent : T) (served : List (Served σ S T String)) : Prop where
  live : ∀ past m rest, served = past ++ m :: rest → m.Forwards → (∀ x ∈ past, ¬ x.FailsHalfway c) →
    ∃ v ∈ past ++ [m], v.Verifies c ∧ (m.before.1.mutationsStarted = false → v = m) ∧
      ∀ l ∈ past, ∀ store target e, l.lock? = some (store, target, e) →
        LiveSince get owner v.before.2.base (m.sending c) store.locker target
  /-- The request that checks the locks comes to forwarding when every expected value has been read, each
  of them within the budget and the time of one more read. -/
  soon : ∀ m ∈ served, ∀ d,
    (∀ store key slice s, now ((c.inner.read store key slice consistent).exec s).2 ≤ now s + d) →
    now (m.sending c) ≤ now m.before.2.base + m.before.1.expected.size * (c.readBudget + d)

/-! ## Acts that leave the lockers alone -/

section

variable [Timed σ] {get : σ → Local} {s s' s'' : σ} {owner : Nat}

theorem Since.refl (s : σ) : Since get s s := ⟨rfl, Nat.le_refl _⟩

theorem Since.trans (h : Since get s s') (h' : Since get s' s'') : Since get s s'' :=
  ⟨h'.1.trans h.1, Nat.le_trans h.2 h'.2⟩

theorem Since.keeps (h : Since get s s') (owner : Nat) : Keeps get owner s s' where
  time := h.2
  asked locker target htarget := by
    rwa [h.1]
  held locker target r hr _ := by
    left
    unfold Local.lockRecord? at hr ⊢
    rwa [h.1]

theorem Keeps.trans (h : Keeps get owner s s') (h' : Keeps get owner s' s'') : Keeps get owner s s'' where
  time := Nat.le_trans h.time h'.time
  asked locker target htarget := h'.asked locker target (h.asked locker target htarget)
  held locker target r hr ho := by
    obtain hr' | hended := h.held locker target r hr ho
    · exact h'.held locker target r hr' ho
    · exact .inr (Nat.le_trans hended h'.time)

variable {α : Type} {L : Type} {s₀ : σ}

/-- An act below the noted layer, counted from any state before. -/
theorem Bystands.lift {act : Act σ α} (h : Bystands get act) :
    (Noted.lift act : Act (Noted σ T) α).Ensures (fun s => Since get s₀ s.base) fun _ => True :=
  fun s hs => ⟨hs.trans (h s.base), fun _ _ => trivial⟩

theorem Bystands.forward {act : Act σ α} (h : Bystands get act) (tx : T) :
    (Noted.forward tx act).Ensures (fun s => Since get s₀ s.base) fun _ => True :=
  (Act.ensures_update fun _ hs => hs).bind fun _ _ => h.lift

theorem since_below {act : Act (Noted σ T) α}
    (h : act.Ensures (fun s => Since get s₀ s.base) fun _ => True) :
    (Checking.below act : Act (Joint S T L × Noted σ T) α).Ensures (fun p => Since get s₀ p.2.base)
      fun _ => True :=
  h.on (fun _ hp => hp) fun _ _ _ ht => ht

theorem since_change (f : Joint S T L → Joint S T L) :
    (Checking.change f).Ensures (σ := Joint S T L × Noted σ T) (fun p => Since get s₀ p.2.base)
      fun _ => True :=
  Act.ensures_update fun _ hp => hp

end

namespace Checking

variable [Timed σ] [Metered σ] {c : Checking σ S T String} {lease : Nanos} {get : σ → Local}
  {set : σ → Local → σ} {s₀ : σ} {j : Joint S T String}

namespace LocksWithin

theorem exec_check (h : c.LocksWithin lease get set) (locker : String) (owner : Nat) (s : σ) :
    (c.locks.check locker owner).exec s = ((get s).lockers.check (now s) locker owner, s) := by
  have hexec : (c.locks.check locker owner).exec s =
      ((get s).lockers.check (now (get s)) locker owner, set s (get s)) := by
    rw [h.locks]
    rfl
  rw [hexec, h.clock, h.set_get]

theorem bystands_check (h : c.LocksWithin lease get set) (locker : String) (owner : Nat) :
    Bystands get (c.locks.check locker owner) := by
  intro s
  rw [h.exec_check]
  exact .refl s

theorem exec_write (h : c.LocksWithin lease get set) (locker : String) (target : LockTarget)
    (owner : Nat) (s : σ) : (c.locks.write locker target owner).exec s =
      match (get s).lockers.write (now s) lease locker owner target with
      | .ok lockers => (.ok (), set s { get s with lockers := lockers })
      | .error f => (.error f, s) := by
  rw [h.locks, LockService.exec_write_within, ← h.clock]
  cases hw : (get s).lockers.write (now (get s)) lease locker owner target with
  | ok lockers => rw [locks_write_ok hw]
  | error f =>
    rw [locks_write_error hw, h.set_get]

/-- Time passes, also while somebody sleeps. -/
theorem since_sleep (h : c.LocksWithin lease get set) (d : Nanos) (s : σ) :
    Since get s (sleepFor d s) ∧ Since get s (passTime d s) := by
  have hlater (k : Clock) (hk : now s ≤ k.elapsed) : Since get s (Timed.setClock s k) := by
    obtain ⟨hlockers, hclock⟩ := h.setClock s k
    refine ⟨hlockers, ?_⟩
    unfold now
    rw [hclock]
    exact hk
  exact ⟨hlater _ (Nat.le_add_right ..), hlater _ (Nat.le_add_right ..)⟩

theorem since_checkLocks (h : c.LocksWithin lease get set) (j : Joint S T String) :
    (c.noted.checkLocks j).Ensures (fun s => Since get s₀ s.base) fun _ => True := by
  refine (Act.ensures_forM (R := fun _ => True) fun _ _ => ?_).mono fun _ _ => trivial
  exact (Act.ensures_asks _).bind fun _ _ => (h.bystands_check _ _).lift

theorem since_checkValue (h : c.LocksWithin lease get set) (j : Joint S T String) (column : LockedColumn)
    (e : Option Bytes) :
    (c.noted.checkValue j column e).Ensures (fun s => Since get s₀ s.base) fun _ => True := by
  unfold Checking.checkValue
  cases j.stores.get? column.store with
  | none => exact Act.ensures_throw _
  | some opened =>
    refine (Act.ensures_asks _).bind fun draw _ => ?_
    refine Act.Ensures.bind (Operation.run_ensures (h.read _ _ _ _).lift ?_ ?_) fun entries _ => ?_
    · exact fun s d hs => hs.trans (h.since_sleep d s.base).1
    · exact fun _ hs => hs
    · dsimp only
      split
      · exact Act.ensures_throw _
      · exact Act.ensures_pure trivial

theorem since_checkValues (h : c.LocksWithin lease get set) (j : Joint S T String) :
    (c.noted.checkValues j).Ensures (fun s => Since get s₀ s.base) fun _ => True :=
  (Act.ensures_forM (R := fun _ => True) fun _ _ => h.since_checkValue j _ _).mono fun _ _ => trivial

theorem since_prepare (h : c.LocksWithin lease get set) :
    c.noted.prepare.Ensures (fun p => Since get s₀ p.2.base) fun _ => True := by
  unfold Checking.prepare
  refine (Act.ensures_asks _).bind fun j _ => (Act.ensures_ofOutcome fun _ _ => trivial).bind
    (P := fun _ => True) fun _ _ => ?_
  dsimp only
  split
  · refine (since_below (h.since_checkLocks j)).bind fun _ _ => ?_
    refine (since_below (h.since_checkValues j)).bind fun _ _ => ?_
    exact (since_change _).bind fun _ _ => Act.ensures_pure trivial
  · exact Act.ensures_pure trivial

/-- Only a lock, the end of the transaction and others change the lockers. -/
theorem since_run (h : c.LocksWithin lease get set) {r : JointRequest σ S String}
    (hr : r.isLock = false) (hends : r.isEnding = false) (hothers : ∀ change, r ≠ .meanwhile change) :
    (r.noted.run c.noted).Ensures (fun p => Since get s₀ p.2.base) fun _ => True := by
  cases r with
  | meanwhile change => exact absurd rfl (hothers change)
  | read store key slice =>
    refine Act.Ensures.bind (P := fun _ => True) ?_ fun _ _ => Act.ensures_pure trivial
    exact (Act.ensures_asks _).bind fun _ _ => since_below (h.read _ _ _ _).lift
  | prepare => exact h.since_prepare.bind fun _ _ => Act.ensures_pure trivial
  | lock => cases hr
  | mutate store key m =>
    exact h.since_prepare.bind fun _ _ => (Act.ensures_asks _).bind fun _ _ =>
      since_below ((h.mutate _ _ _ _).forward _)
  | mutateMany batch =>
    refine h.since_prepare.bind fun b _ => ?_
    refine Act.Ensures.bind (P := fun _ => True) (since_below (Act.ensures_update ?_)) fun _ _ => ?_
    · exact fun s hs => hs.trans (h.count (fun m => m.countBatch b) s.base)
    · exact (Act.ensures_asks _).bind fun _ _ => since_below ((h.mutateMany _ _).forward _)
  | commit => cases hends
  | rollback => cases hends

/-- A commit or a rollback that does not come to releasing the locks leaves them alone. -/
theorem since_ending (h : c.LocksWithin lease get set) {r : JointRequest σ S String}
    {p : Joint S T String × Noted σ T} (hends : r.isEnding = true)
    (hnot : ¬ (r.served c p).Releases c) : Since get p.2.base (r.served c p).after.2.base := by
  obtain ⟨j, s⟩ := p
  obtain ⟨f, he, -⟩ | ⟨he, -⟩ := ensureActive_cases j
  · cases r with
    | commit =>
      rw [served_eq (r := .commit) (commit_ended he)]
      exact .refl _
    | rollback =>
      rw [served_eq (r := .rollback) (rollback_ended he)]
      exact .refl _
    | _ => cases hends
  · cases r with
    | commit =>
      cases hcommit : (c.noted.inner.commit j.inconsistent).exec s with
      | mk o s' =>
        cases o with
        | ok u => exact absurd ⟨he, .inr ⟨rfl, by rw [JointRequest.served, hcommit]⟩⟩ hnot
        | error f =>
          have hsince := ((h.commit j.inconsistent).lift (T := T) s (.refl s.base)).1
          have hlift : (Noted.lift (c.inner.commit j.inconsistent)).exec s = (.error f, s') := hcommit
          rw [hlift] at hsince
          rw [served_eq (r := .commit) (commit_refused he hcommit)]
          exact hsince
    | rollback => exact absurd ⟨he, .inl rfl⟩ hnot
    | _ => cases hends

/-! ### What a check has found -/

theorem quiet_check (h : c.LocksWithin lease get set) (tx : T) (opened : S × String) :
    (Act.asks (c.noted.inner.txId tx) >>= fun owner => c.noted.locks.check opened.2 owner).Quiet := by
  refine (Act.quiet_asks _).bind fun owner s => ?_
  have hlift : ((c.noted.locks.check opened.2 owner).exec s).2 =
      { s with base := ((c.locks.check opened.2 owner).exec s.base).2 } := rfl
  rw [hlift, h.exec_check]

/-- Whatever a store's locker has been asked for is live when everything is verified. -/
theorem live_of_verify (h : c.LocksWithin lease get set) {owner : Nat}
    (howner : ∀ s, c.inner.txId j.consistent s = owner) {s : Noted σ T}
    (hverify : ((c.noted.verify j).exec s).1 = .ok ()) {name : String} {opened : S × String}
    (hopened : j.stores.get? name = some opened) {target : LockTarget}
    (htarget : target ∈ ((get s.base).lockers.table opened.2).requests owner) :
    ∃ r, (get s.base).lockRecord? opened.2 target = some r ∧ r.owner = owner ∧ now s.base < r.expires := by
  have hquiet := h.quiet_check (T := T) j.consistent
  cases hv : (c.noted.verify j).exec s with
  | mk o s' =>
    rw [hv] at hverify
    dsimp only at hverify
    subst hverify
    have hlocks : (c.noted.checkLocks j).Quiet := Act.quiet_forM hquiet _
    obtain ⟨_, hchecked, -⟩ := hlocks.bind_ok hv
    have hcheck := Act.Quiet.forM_ok hquiet hchecked opened (SortedMap.mem_values_iff.mpr ⟨name, hopened⟩)
    have houtcome := congrArg Prod.fst hcheck
    change ((c.locks.check opened.2 (c.inner.txId j.consistent s.base)).exec s.base).1 = .ok () at houtcome
    rw [howner, h.exec_check] at houtcome
    exact LockTable.check_eq_ok.mp houtcome target htarget

/-- A lock is refused and the lockers stay as they are, or it is taken. -/
theorem lock_lockers (h : c.LocksWithin lease get set) (store : CheckedStore S String) (key column : Bytes)
    (e : Option Bytes) (p : Joint S T String × Noted σ T) :
    (((JointRequest.lock store key column e).served c p).lock? = none ∧
        Since get p.2.base ((JointRequest.lock store key column e).served c p).after.2.base) ∨
      ((JointRequest.lock store key column e).served c p).lock? = some (store, ⟨key, column⟩, e) ∧
        (get p.2.base).lockers.write (now p.2.base) lease store.locker
            (c.inner.txId p.1.consistent p.2.base) ⟨key, column⟩ =
          .ok (get ((JointRequest.lock store key column e).served c p).after.2.base).lockers := by
  obtain ⟨j, s⟩ := p
  obtain ⟨f, he, -⟩ | ⟨-, he⟩ := lock_cases c.noted j s store key column e
  · rw [served_eq (r := .lock store key column e) he]
    exact .inl ⟨rfl, .refl _⟩
  · have hlift : (c.noted.locks.write store.locker ⟨key, column⟩ (c.noted.inner.txId j.consistent s)).exec s =
        (((c.locks.write store.locker ⟨key, column⟩ (c.inner.txId j.consistent s.base)).exec s.base).1,
          { s with base :=
            ((c.locks.write store.locker ⟨key, column⟩ (c.inner.txId j.consistent s.base)).exec s.base).2 }) := rfl
    rw [hlift, h.exec_write] at he
    cases hw : (get s.base).lockers.write (now s.base) lease store.locker
        (c.inner.txId j.consistent s.base) ⟨key, column⟩ with
    | error f =>
      rw [hw] at he
      rw [served_eq (r := .lock store key column e) he]
      exact .inl ⟨rfl, .refl _⟩
    | ok lockers =>
      rw [hw] at he
      rw [served_eq (r := .lock store key column e) he]
      refine .inr ⟨rfl, ?_⟩
      dsimp only
      rw [h.get_set]

/-! ### How long a check takes -/

theorem checkValue_time (h : c.LocksWithin lease get set) {d : Nanos}
    (hread : ∀ store key slice s, now ((c.inner.read store key slice j.consistent).exec s).2 ≤ now s + d)
    (column : LockedColumn) (e : Option Bytes) (s : Noted σ T) :
    now ((c.noted.checkValue j column e).exec s).2 ≤ now s + (c.readBudget + d) := by
  unfold Checking.checkValue
  cases hopened : j.stores.get? column.store with
  | none => exact Nat.le_add_right ..
  | some opened =>
    obtain ⟨store, locker⟩ := opened
    dsimp only
    rw [Act.exec_bind_ok (Act.exec_asks ..), Act.exec_bind]
    have hcall (t : Noted σ T) : now ((c.noted.inner.read store column.target.key
        (columnSlice column.target.column) j.consistent).exec t).2 ≤ now t + d := hread _ _ _ t.base
    have htime := (c.noted.reading column.store (c.noted.draw s)).run_time hcall
      (fun d s => Tries.now_sleepFor (fun s k => (h.setClock s k).2) d s.base) (fun _ => rfl) s
    split
    · rename_i entries s' he
      rw [he] at htime
      split
      · exact htime
      · exact htime
    · rename_i f s' he
      rwa [he] at htime

omit [Metered σ] in
theorem forM_time {α : Type} (act : α → Act (Noted σ T) PUnit) {d : Nanos}
    (h : ∀ x s, now ((act x).exec s).2 ≤ now s + d) (xs : List α) (s : Noted σ T) :
    now ((xs.forM act).exec s).2 ≤ now s + xs.length * d := by
  induction xs generalizing s with
  | nil => exact Nat.le_add_right ..
  | cons x xs ih =>
    have hx := h x s
    change now ((act x >>= fun _ => xs.forM act).exec s).2 ≤ now s + (x :: xs).length * d
    rw [Act.exec_bind, List.length_cons, Nat.succ_mul, Nat.add_comm (xs.length * d), ← Nat.add_assoc]
    split
    · rename_i u s' he
      rw [he] at hx
      exact Nat.le_trans (ih s') (Nat.add_le_add_right hx _)
    · rename_i f s' he
      rw [he] at hx
      exact Nat.le_trans hx (Nat.le_add_right ..)

theorem prepare_time (h : c.LocksWithin lease get set) {d : Nanos}
    (hread : ∀ store key slice s, now ((c.inner.read store key slice j.consistent).exec s).2 ≤ now s + d)
    (s : Noted σ T) : now (c.noted.prepare.exec (j, s)).2.2 ≤ now s + j.expected.size * (c.readBudget + d) := by
  obtain ⟨f, he, -⟩ | ⟨he, -⟩ := ensureActive_cases j
  · rw [prepare_ended he]
    exact Nat.le_add_right ..
  cases hstarted : j.mutationsStarted with
  | true =>
    rw [prepare_started he hstarted]
    exact Nat.le_add_right ..
  | false =>
    have hverify : now ((c.noted.verify j).exec s).2 ≤ now s + j.expected.size * (c.readBudget + d) := by
      have hlocks : (c.noted.checkLocks j).Quiet := Act.quiet_forM (h.quiet_check j.consistent) _
      have hvalues : now ((c.noted.checkValues j).exec s).2 ≤ now s + j.expected.size * (c.readBudget + d) :=
        forM_time (fun x => c.noted.checkValue j x.1 x.2)
          (fun x s => h.checkValue_time hread x.1 x.2 s) j.expected.toList s
      unfold Checking.verify
      obtain ⟨f, hl⟩ | ⟨u, hl⟩ := hlocks.exec s
      · rw [Act.exec_bind_error hl]
        exact Nat.le_add_right ..
      · rw [Act.exec_bind_ok hl]
        exact hvalues
    rw [prepare_first he hstarted]
    cases hv : (c.noted.verify j).exec s with
    | mk o s' =>
      rw [hv] at hverify
      cases o with
      | error f => exact hverify
      | ok u => exact hverify

end LocksWithin

end Checking

/-! ## What others do -/

namespace LockStep

variable {lease : Nanos} {owner : Nat} {step : LockStep}

/-- Who takes or releases locks in a step. -/
def owner? : LockStep → Option Nat
  | .write _ n _ => some n
  | .release _ n => some n
  | _ => none

/-- What the steps lead to. -/
def finish (lease : Nanos) (steps : List LockStep) (s : Local) : Local :=
  steps.foldl (fun s step => (step.made lease s).after) s

/-- A step of somebody else. -/
theorem keeps_made (lease : Nanos) (hstep : step.owner? ≠ some owner) (s : Local) :
    Keeps id owner s (step.made lease s).after where
  time := by
    cases effect_made lease "" s step with
    | idle _ htime => exact htime
    | taken _ _ htime => exact Nat.le_of_eq htime.symm
    | released _ _ htime => exact Nat.le_of_eq htime.symm
  asked locker target htarget := by
    change target ∈ ((step.made lease s).after.lockers.table locker).requests owner
    cases effect_made lease locker s step with
    | idle htable =>
      rw [htable]
      exact htarget
    | taken _ htable => exact (LockTable.requests_write htable).mpr (.inl htarget)
    | released hreleases htable =>
      have hother : step = .release locker _ := hreleases
      rw [htable, LockTable.requests_release, if_neg fun h => hstep (by rw [hother, h]; rfl)]
      exact htarget
  held locker target r hr ho := by
    change (step.made lease s).after.lockRecord? locker target = some r ∨ _
    unfold Local.lockRecord? at hr ⊢
    cases effect_made lease locker s step with
    | idle htable =>
      rw [htable]
      exact .inl hr
    | taken htakes htable htime =>
      have hother : step = .write locker _ _ := htakes.1
      change _ ∨ r.expires ≤ now (step.made lease s).after
      rw [htime]
      exact LockTable.held_write htable hr fun h => hstep (by rw [hother, ← ho, h]; rfl)
    | released hreleases htable =>
      have hother : step = .release locker _ := hreleases
      rw [htable]
      exact .inl (LockTable.held_release hr fun h => hstep (by rw [hother, ← ho, h]; rfl))

/-- Whatever others do with the lockers while time passes, an owner keeps its locks. -/
theorem keeps_finish (lease : Nanos) {steps : List LockStep}
    (hsteps : ∀ step ∈ steps, step.owner? ≠ some owner) (s : Local) :
    Keeps id owner s (finish lease steps s) := by
  induction steps generalizing s with
  | nil => exact (Since.refl s).keeps owner
  | cons step steps ih =>
    rw [List.forall_mem_cons] at hsteps
    exact (keeps_made lease hsteps.1 s).trans (ih hsteps.2 _)

end LockStep

section

variable [Timed σ] [Metered σ] {c : Checking σ S T String} {lease : Nanos} {get : σ → Local}
  {set : σ → Local → σ} {owner : Nat} {target : LockTarget} {s : σ}

/-- The steps of others as what happens between two requests. -/
theorem Checking.LocksWithin.keeps_steps (h : c.LocksWithin lease get set) {steps : List LockStep}
    (hsteps : ∀ step ∈ steps, step.owner? ≠ some owner) (s : σ) :
    Keeps get owner s (set s (LockStep.finish lease steps (get s))) := by
  have hkeeps := LockStep.keeps_finish lease hsteps (get s)
  refine ⟨?_, fun locker target htarget => ?_, fun locker target r hr ho => ?_⟩
  · rw [← h.clock s, ← h.clock (set _ _), h.get_set]
    exact hkeeps.time
  · rw [h.get_set]
    exact hkeeps.asked locker target htarget
  · rw [← h.clock (set _ _), h.get_set]
    exact hkeeps.held locker target r hr ho

/-! ## What every request keeps -/

variable {consistent : T} {past : List (Served σ S T String)} {m : Served σ S T String} {s' s'' : σ}
  {locker : String}

omit [Metered σ] in
theorem LiveSince.keeps (hlive : LiveSince get owner s s' locker target) (h : Keeps get owner s' s'') :
    LiveSince get owner s s'' locker target := by
  obtain ⟨r, hr, ho, htime, hr' | hended⟩ := hlive
  · exact ⟨r, hr, ho, htime, h.held _ _ r hr' ho⟩
  · exact ⟨r, hr, ho, htime, .inr (Nat.le_trans hended h.time)⟩

/-- Every lock that was granted has been asked of the locker of its store, and once mutating has begun it
has been checked. -/
structure Holding (c : Checking σ S T String) (get : σ → Local) (owner : Nat) (consistent : T)
    (past : List (Served σ S T String)) (p : Joint S T String × Noted σ T) : Prop where
  consistent : p.1.consistent = consistent
  lockers : ∀ name opened, p.1.stores.get? name = some opened → opened.2 = name ++ c.suffix
  asked : ∀ l ∈ past, ∀ store target e, l.lock? = some (store, target, e) →
    (∃ opened, p.1.stores.get? store.name = some opened ∧ opened.2 = store.locker) ∧
      target ∈ ((get p.2.base).lockers.table store.locker).requests owner
  live : p.1.mutationsStarted = true → ∃ v ∈ past, v.Verifies c ∧
    ∀ l ∈ past, ∀ store target e, l.lock? = some (store, target, e) →
      LiveSince get owner v.before.2.base p.2.base store.locker target

omit [Metered σ] in
theorem holding_new (c : Checking σ S T String) (get : σ → Local) (owner : Nat) (o : TxOptions)
    (inconsistent consistent : T) (s : σ) :
    Holding c get owner consistent [] (.new o inconsistent consistent, ⟨s, []⟩) where
  consistent := rfl
  lockers _ _ h := by cases h
  asked _ h := by cases h
  live h := by cases h

namespace Holding

theorem live_of_verify {p : Joint S T String × Noted σ T} (h : Holding c get owner consistent past p)
    (hc : c.LocksWithin lease get set) (howner : ∀ s, c.inner.txId consistent s = owner)
    (hverify : ((c.noted.verify p.1).exec p.2).1 = .ok ()) (hkeeps : Keeps get owner p.2.base s')
    {l : Served σ S T String} (hl : l ∈ past) {store : CheckedStore S String} {e : Option Bytes}
    (hlock : l.lock? = some (store, target, e)) :
    LiveSince get owner p.2.base s' store.locker target := by
  obtain ⟨⟨opened, hopened, hlocker⟩, htarget⟩ := h.asked l hl store target e hlock
  rw [← hlocker] at htarget ⊢
  obtain ⟨r, hr, ho, htime⟩ :=
    hc.live_of_verify (by rw [h.consistent]; exact howner) hverify hopened htarget
  exact ⟨r, hr, ho, htime, hkeeps.held _ _ r hr ho⟩

/-- A request that takes no lock. -/
theorem step_of_unlocked (h : Holding c get owner consistent past m.before)
    (hc : c.LocksWithin lease get set) (howner : ∀ s, c.inner.txId consistent s = owner)
    (hlock : m.lock? = none) (hkeeps : Keeps get owner m.before.2.base m.after.2.base)
    (hconsistent : m.after.1.consistent = m.before.1.consistent)
    (hstores : m.after.1.stores = m.before.1.stores)
    (hstarted : m.after.1.mutationsStarted = true → m.before.1.mutationsStarted = true ∨ m.Verifies c) :
    Holding c get owner consistent (past ++ [m]) m.after := by
  have hpast : ∀ l ∈ past ++ [m], ∀ store target e, l.lock? = some (store, target, e) → l ∈ past := by
    intro l hl store target e hlocked
    obtain hl | hl := List.mem_append.mp hl
    · exact hl
    · rw [List.mem_singleton.mp hl, hlock] at hlocked
      cases hlocked
  refine ⟨hconsistent.trans h.consistent, ?_, ?_, ?_⟩
  · rw [hstores]
    exact h.lockers
  · intro l hl store target e hlocked
    obtain ⟨hopened, htarget⟩ := h.asked l (hpast l hl _ _ _ hlocked) store target e hlocked
    rw [hstores]
    exact ⟨hopened, hkeeps.asked _ _ htarget⟩
  · intro hafter
    obtain hbefore | hverifies := hstarted hafter
    · obtain ⟨v, hv, hverified, hall⟩ := h.live hbefore
      refine ⟨v, List.mem_append_left _ hv, hverified, fun l hl store target e hlocked => ?_⟩
      exact (hall l (hpast l hl _ _ _ hlocked) store target e hlocked).keeps hkeeps
    · refine ⟨m, by simp, hverifies, fun l hl store target e hlocked => ?_⟩
      exact h.live_of_verify hc howner hverifies.2.2 hkeeps (hpast l hl _ _ _ hlocked) hlocked

omit [Metered σ] in
/-- A lock that is taken. -/
theorem step_of_locked (h : Holding c get owner consistent past m.before)
    {store : CheckedStore S String} {e : Option Bytes} (hlock : m.lock? = some (store, target, e))
    (hname : store.locker = store.name ++ c.suffix) (hstarted : m.before.1.mutationsStarted = false)
    (hjoint : m.after.1 = ({ m.before.1 with lockAttempted := true } : Joint S T String).expect store.name
      (store.store, store.locker) target e)
    (hwrite : (get m.before.2.base).lockers.write (now m.before.2.base) lease store.locker owner target =
      .ok (get m.after.2.base).lockers) :
    Holding c get owner consistent (past ++ [m]) m.after := by
  have hget (name : String) : m.after.1.stores.get? name =
      if name = store.name ∧ m.before.1.stores.get? name = none then some (store.store, store.locker)
        else m.before.1.stores.get? name := by
    rw [hjoint]
    exact Joint.get?_expect ..
  have hlockers : ∀ name opened, m.after.1.stores.get? name = some opened →
      opened.2 = name ++ c.suffix := by
    intro name opened hopened
    rw [hget] at hopened
    split at hopened
    · rename_i hnew
      cases hopened
      rw [hnew.1]
      exact hname
    · exact h.lockers name opened hopened
  refine ⟨?_, hlockers, ?_, ?_⟩
  · rw [hjoint]
    exact h.consistent
  · intro l hl found x f hlocked
    obtain hl | hl := List.mem_append.mp hl
    · obtain ⟨⟨opened, hopened, hlocker⟩, hx⟩ := h.asked l hl found x f hlocked
      refine ⟨⟨opened, ?_, hlocker⟩, (Lockers.requests_write hwrite _).mpr (.inl hx)⟩
      rw [hget, if_neg (fun hnew => by rw [hopened] at hnew; cases hnew.2), hopened]
    · rw [List.mem_singleton.mp hl, hlock] at hlocked
      cases hlocked
      refine ⟨?_, (Lockers.requests_write hwrite _).mpr (.inr ⟨rfl, rfl, rfl⟩)⟩
      cases hfound : m.before.1.stores.get? store.name with
      | none => exact ⟨(store.store, store.locker), by rw [hget, if_pos ⟨rfl, hfound⟩], rfl⟩
      | some opened =>
        refine ⟨opened, ?_, (h.lockers _ _ hfound).trans hname.symm⟩
        rw [hget, if_neg (fun hnew => by rw [hfound] at hnew; cases hnew.2), hfound]
  · intro hafter
    rw [hjoint] at hafter
    exact absurd (hstarted.symm.trans hafter) (by simp)

/-- A request that takes no lock and keeps those of the transaction. -/
theorem step_of_keeps (h : Holding c get owner consistent past m.before)
    (hc : c.LocksWithin lease get set) (howner : ∀ s, c.inner.txId consistent s = owner)
    (heffect : Effect c m) (hlock : m.lock? = none)
    (hkeeps : Keeps get owner m.before.2.base m.after.2.base) :
    Holding c get owner consistent (past ++ [m]) m.after := by
  have hstep := h.step_of_unlocked hc howner hlock hkeeps
  cases heffect with
  | kept hjoint hforwarded hasks _ =>
    obtain ⟨state, hjoint⟩ := hjoint
    exact hstep (by rw [hjoint]) (by rw [hjoint]) fun hstarted => .inl (by rwa [hjoint] at hstarted)
  | refused hjoint hforwarded hasks _ =>
    exact hstep (by rw [hjoint]) (by rw [hjoint]) fun hstarted => .inl (by rwa [hjoint] at hstarted)
  | locked hjoint hforwarded hasks hlocked =>
    rw [hlock] at hlocked
    cases hlocked
  | checked hchecked hactive hverified hjoint hforwarded hasks _ =>
    refine hstep (by rw [hjoint]) (by rw [hjoint]) fun hstarted => ?_
    cases hbefore : m.before.1.mutationsStarted with
    | true => exact .inl rfl
    | false =>
      rw [hbefore] at hverified
      exact .inr ⟨hbefore, hstarted, hverified.resolve_left (by simp)⟩

theorem step {p : Joint S T String × Noted σ T} (h : Holding c get owner consistent past p)
    (hc : c.LocksWithin lease get set) (howner : ∀ s, c.inner.txId consistent s = owner)
    (r : JointRequest σ S String) (horderly : r.Orderly c.suffix get owner)
    (hnot : ¬ (r.served c p).Releases c) :
    Holding c get owner consistent (past ++ [r.served c p]) (r.served c p).after := by
  have heffect := effect_served c p r
  cases hends : r.isEnding with
  | true =>
    have hlock := (not_asksInTime (m := r.served c p) (by cases r <;> first | rfl | cases hends)).2
    exact h.step_of_keeps hc howner heffect hlock ((hc.since_ending hends hnot).keeps owner)
  | false =>
    cases r with
    | meanwhile change => exact h.step_of_keeps hc howner heffect rfl (horderly p.2.base)
    | lock store key column e =>
      obtain ⟨hlock, hsince⟩ | ⟨hlock, hwrite⟩ := hc.lock_lockers store key column e p
      · exact h.step_of_keeps hc howner heffect hlock (hsince.keeps owner)
      · rw [h.consistent, howner] at hwrite
        cases heffect with
        | kept hjoint hforwarded hasks hnone =>
          rw [hnone] at hlock
          cases hlock
        | refused hjoint hforwarded hasks hnone =>
          rw [hnone] at hlock
          cases hlock
        | locked hjoint hforwarded hasks hlocked =>
          rw [hlocked] at hlock
          cases hlock
          exact h.step_of_locked hlocked horderly hasks.2.2 hjoint hwrite
        | checked hchecked hactive hverified hjoint hforwarded hasks hnone =>
          rw [hnone] at hlock
          cases hlock
    | commit => cases hends
    | rollback => cases hends
    | _ =>
      refine h.step_of_keeps hc howner heffect (not_asksInTime rfl).2 (Since.keeps ?_ owner)
      exact (hc.since_run rfl rfl (fun _ => by simp) p (.refl _)).1

/-- When a mutation is forwarded, now or before all locks have been checked. -/
theorem live_of_forwards {p : Joint S T String × Noted σ T} (h : Holding c get owner consistent past p)
    (hc : c.LocksWithin lease get set) (howner : ∀ s, c.inner.txId consistent s = owner)
    {r : JointRequest σ S String} (hforwards : (r.served c p).Forwards) :
    ∃ v ∈ past ++ [r.served c p], v.Verifies c ∧
      (p.1.mutationsStarted = false → v = r.served c p) ∧
      ∀ l ∈ past, ∀ store target e, l.lock? = some (store, target, e) →
        LiveSince get owner v.before.2.base ((r.served c p).sending c) store.locker target := by
  obtain ⟨-, hactive, hverified, hjoint⟩ := (effect_served c p r).of_forwards hforwards
  cases hstarted : p.1.mutationsStarted with
  | true =>
    have hsending : (r.served c p).sending c = p.2.base := by
      obtain ⟨j, s⟩ := p
      have hprepare : c.noted.prepare.exec (j, s) = (.ok j.hasAnyLocks, (j, s)) :=
        Checking.prepare_started hactive hstarted
      change (c.noted.prepare.exec (j, s)).2.2.base = s.base
      rw [hprepare]
    obtain ⟨v, hv, hverifies, hall⟩ := h.live hstarted
    rw [hsending]
    exact ⟨v, List.mem_append_left _ hv, hverifies, fun hnot => by simp at hnot, hall⟩
  | false =>
    have hbefore : (r.served c p).before.1.mutationsStarted = false := hstarted
    rw [hbefore] at hverified
    have hverify := hverified.resolve_left (by simp)
    have hsince : Since get p.2.base ((r.served c p).sending c) := (hc.since_prepare p (.refl _)).1
    refine ⟨r.served c p, by simp, ⟨hstarted, by rw [hjoint], hverify⟩, fun _ => rfl, ?_⟩
    intro l hl store target e hlock
    exact h.live_of_verify hc howner hverify (hsince.keeps owner) hl hlock

end Holding

theorem holding_serve (hc : c.LocksWithin lease get set) (o : TxOptions) (inconsistent consistent : T)
    (s : σ) (howner : ∀ s, c.inner.txId consistent s = owner) (rs : List (JointRequest σ S String))
    (h : ∀ x ∈ serve c rs (.new o inconsistent consistent, ⟨s, []⟩),
      x.request.Orderly c.suffix get owner ∧ ¬ x.Releases c) :
    Holding c get owner consistent (serve c rs (.new o inconsistent consistent, ⟨s, []⟩))
      (finish c rs (.new o inconsistent consistent, ⟨s, []⟩)) := by
  refine serve_invariant (I := fun past q =>
    (∀ x ∈ past, x.request.Orderly c.suffix get owner ∧ ¬ x.Releases c) →
      Holding c get owner consistent past q) (fun _ => holding_new ..) (fun past q r ih hpast => ?_) rs h
  simp only [List.forall_mem_append, List.forall_mem_singleton] at hpast
  exact (ih hpast.1).step hc howner r hpast.2.1 hpast.2.2

/-- The locks of a joint transaction have been checked when its mutations are forwarded, and were live
then: over any backend that leaves the lockers alone, with any lease and any budget, whichever reads
fail, and whatever others do between the requests that keeps the locks of the transaction. -/
theorem checked_live (hc : c.LocksWithin lease get set) (o : TxOptions) (inconsistent consistent : T) (s : σ)
    (howner : ∀ s, c.inner.txId consistent s = owner) (rs : List (JointRequest σ S String))
    (hrs : ∀ r ∈ rs, r.Orderly c.suffix get owner) :
    LiveWhenChecked c get owner consistent (serve c rs (.new o inconsistent consistent, ⟨s, []⟩)) := by
  constructor
  · intro past m rest hsplit hforwards hhalf
    have horderly : ∀ x ∈ past, x.request.Orderly c.suffix get owner := by
      intro x hx
      refine hrs _ (request_mem (c := c) (p := (.new o inconsistent consistent, ⟨s, []⟩)) ?_)
      rw [hsplit]
      exact List.mem_append_left _ hx
    obtain ⟨rs₁, r, rs₂, rfl, rfl, -⟩ := exists_of_serve hsplit
    obtain ⟨-, hactive, -⟩ := (forwards_iff r).mp hforwards
    -- A request that had released the locks and not failed would have ended the transaction.
    have hkept : ∀ x ∈ serve c rs₁ (.new o inconsistent consistent, ⟨s, []⟩), ¬ x.Releases c := by
      intro x hx hreleases
      have hfailed := releases_ends hreleases ((active_iff rfl rs₁).mp hactive x hx)
      exact hhalf x hx ⟨hreleases, hfailed⟩
    have hholding := holding_serve hc o inconsistent consistent s howner rs₁
      fun x hx => ⟨horderly x hx, hkept x hx⟩
    exact hholding.live_of_forwards hc howner hforwards
  · intro m hm d hread
    obtain ⟨past, rest, hsplit⟩ := List.append_of_mem hm
    obtain ⟨rs₁, r, rs₂, -, rfl, -⟩ := exists_of_serve hsplit
    have hconsistent := (routed_serve c o inconsistent consistent s rs₁).consistent
    rw [← hconsistent] at hread
    exact hc.prepare_time hread _

end

/-! ## Leases that end -/

namespace Lease

/-- The checking layer over a backend on the memory whose calls are watched, with lockers beside it and
waits of 50 milliseconds between reads. -/
def layer {S T : Type} (b : Backend Memory S T) (lease : Nanos) :
    Checking (Watched Local) S T String where
  inner := Watched.backend (b.within Local.memory fun s m => { s with memory := m })
  locks := (Local.locks lease).within Watched.base fun s b => { s with base := b }
  suffix := Settings.steady.locks.suffix
  readBudget := .ofMillis Settings.steady.retry.readWaitMillis
  policy := ⟨.ofMillis 50, .ofNat 0⟩

/-- A watched call of the memory. -/
theorem bystands_call {α : Type} (name : CallName) (detail : Local → String) (act : Act Memory α) :
    Bystands Watched.base
      (Watched.call name detail (act.on Local.memory fun m b => { b with memory := m })) := by
  intro s
  unfold Watched.call
  rw [Act.exec_of]
  dsimp only
  split
  · exact ⟨rfl, Nat.le_refl _⟩
  · exact ⟨rfl, Nat.le_refl _⟩

theorem locksWithin_layer {S T : Type} (b : Backend Memory S T) (lease : Nanos) :
    (layer b lease).LocksWithin lease Watched.base fun s b => { s with base := b } where
  locks := rfl
  get_set _ _ := rfl
  set_get _ := rfl
  clock _ := rfl
  setClock _ _ := ⟨rfl, rfl⟩
  count _ _ := ⟨rfl, Nat.le_refl _⟩
  read store key slice tx :=
    bystands_call .read (fun s => Watched.readDetail (b.txId tx s.memory) key slice)
      (b.read store key slice tx)
  mutate store key m tx :=
    bystands_call .mutate (fun s => toString (b.txId tx s.memory)) (b.mutate store key m tx)
  mutateMany batch tx :=
    bystands_call .mutateMany (fun s => toString (b.txId tx s.memory)) (b.mutateMany batch tx)
  commit tx := bystands_call .commit (fun s => toString (b.txId tx s.memory)) (b.commit tx)

/-- The layer over the memory. -/
def checking (lease : Nanos) : Checking (Watched Local) StoreHandle TxHandle String :=
  layer (Memory.backend Memory.defaultFeatures) lease

theorem locksWithin (lease : Nanos) :
    (checking lease).LocksWithin lease Watched.base fun s b => { s with base := b } :=
  locksWithin_layer _ lease

/-- A lease of 100 milliseconds. -/
def short : Nanos := .ofMillis 100

def rows : CheckedStore StoreHandle String :=
  ⟨"rows", ⟨0, "rows"⟩, "rows" ++ (checking short).suffix, 0⟩

/-- Both parts are begun. Two reads are planned to fail, which takes waits of 150 milliseconds. -/
def base : Watched Local :=
  (((checking short).begun .none).exec (.new .new)).2.plan .read
    [some (.backend (.temporary "busy" none)), some (.backend (.temporary "busy" none))]

/-- Another transaction tries to lock the column when half of the lease has passed. -/
def steps : List LockStep := [.advance (.ofMillis 50), .write rows.locker 9 ⟨[1], [1]⟩]

def others (s : Watched Local) : Watched Local := { s with base := LockStep.finish short steps s.base }

/-- A column is locked and mutated. -/
def requests : List (JointRequest (Watched Local) StoreHandle String) :=
  [.lock rows [1] [1] none, .meanwhile others, .mutate rows [1] ⟨[⟨[1], [7]⟩], []⟩]

/-- What becomes of the requests. -/
def served : List (Served (Watched Local) StoreHandle TxHandle String) :=
  serve (checking short) requests (.new .none ⟨1⟩ ⟨2⟩, ⟨base, []⟩)

theorem orderly : ∀ r ∈ requests, r.Orderly (checking short).suffix Watched.base 2 := by
  have hothers (s : Watched Local) : Keeps Watched.base 2 s (others s) :=
    (locksWithin short).keeps_steps (by decide) s
  simp only [requests, List.forall_mem_cons]
  exact ⟨rfl, hothers, trivial, by simp⟩

end Lease

theorem checked_live_reread : (Lease.checking Lease.short).LocksWithin Lease.short Watched.base
      (fun s b => { s with base := b }) ∧
    (∀ r ∈ Lease.requests, r.Orderly (Lease.checking Lease.short).suffix Watched.base 2) ∧
    LiveWhenChecked (Lease.checking Lease.short) Watched.base 2 ⟨2⟩ Lease.served :=
  ⟨Lease.locksWithin _, Lease.orderly,
    checked_live (Lease.locksWithin _) .none ⟨1⟩ ⟨2⟩ Lease.base (fun _ => rfl) Lease.requests Lease.orderly⟩

/-- A lock is checked when half of its lease is left, and the lease ends while a column is read again:
not every lock is live when the first mutation is forwarded. -/
theorem lease_ended_while_reading :
    (∀ r ∈ Lease.requests, r.Orderly (Lease.checking Lease.short).suffix Watched.base 2) ∧
    ¬ ∀ past m rest, Lease.served = past ++ m :: rest → m.Forwards → (∀ x ∈ past, ¬ x.Forwards) →
      ∀ l ∈ past, ∀ store target e, l.lock? = some (store, target, e) →
        ∃ r, (m.sending (Lease.checking Lease.short)).base.lockRecord? store.locker target = some r ∧
          r.owner = 2 ∧ now (m.sending (Lease.checking Lease.short)) < r.expires := by
  refine ⟨Lease.orderly, fun hall => ?_⟩
  have hforwards : (Lease.served[2]).Forwards := by
    unfold Served.Forwards
    decide +kernel
  have hfirst : ∀ x ∈ [Lease.served[0], Lease.served[1]], ¬ x.Forwards := by
    unfold Served.Forwards
    decide +kernel
  have hrecord : ((Lease.served[2]).sending (Lease.checking Lease.short)).base.lockRecord?
      Lease.rows.locker ⟨[1], [1]⟩ = some ⟨2, 100000000⟩ := by decide +kernel
  have htime : now ((Lease.served[2]).sending (Lease.checking Lease.short)) = 200000000 := by
    decide +kernel
  obtain ⟨r, hr, -, hlive⟩ := hall [Lease.served[0], Lease.served[1]] Lease.served[2] [] rfl hforwards
    hfirst Lease.served[0] List.mem_cons_self Lease.rows ⟨[1], [1]⟩ none rfl
  rw [hrecord] at hr
  cases hr
  rw [htime] at hlive
  exact absurd hlive (by decide)

end RowGraph
