import RowGraph.Proofs.LayerRuns
import RowGraph.Proofs.LiveLocks

/-!
# What a request does to the lockers

A joint transaction changes the lockers in two ways only: it takes a lock, which it notes with the locker
(`lock_effect`), and it releases its locks when it ends (`commit_effect`, `rollback_effect`).  What lockers
hold after a release is what they held before, but for the owner's own locks in the lockers that were asked
(`held_released`).
-/

namespace RowGraph

variable {σ S T L α : Type}

/-! ## Records and requests -/

/-- Whatever a locker holds was asked of it, and only those have asked a locker that are known to it. -/
structure Lockers.Backed (l : Lockers) (knows : Nat → String → Prop) : Prop where
  asked : ∀ locker x r, (l.table locker).held.get? x = some r → x ∈ (l.table locker).requests r.owner
  known : ∀ locker x owner, x ∈ (l.table locker).requests owner → knows owner locker

namespace Lockers.Backed

variable {l l' : Lockers} {knows knows' : Nat → String → Prop} {time lease : Nanos} {name locker : String}
  {owner : Nat} {target x : LockTarget} {r : LockRecord}

theorem empty (knows : Nat → String → Prop) : Backed .empty knows where
  asked _ _ _ h := by cases h
  known _ _ _ h := by cases h

theorem mono (h : l.Backed knows) (hknows : ∀ owner locker, knows owner locker → knows' owner locker) :
    l.Backed knows' where
  asked := h.asked
  known locker x owner hx := hknows owner locker (h.known locker x owner hx)

/-- Taking a lock asks for it. -/
theorem write (h : l.Backed knows) (hwrite : l.write time lease name owner target = .ok l')
    (hknows : knows owner name) : l'.Backed knows where
  asked locker x r hr := by
    obtain ⟨t, ht, rfl⟩ := write_eq_ok hwrite
    rw [table_put] at hr ⊢
    split at hr
    · rename_i hname
      subst hname
      rw [if_pos rfl, LockTable.requests_write ht]
      rw [(LockTable.write_eq_ok ht).2, SortedMap.get?_put] at hr
      split at hr
      · rename_i hx
        cases hr
        exact .inr ⟨rfl, hx⟩
      · exact .inl (h.asked locker x r hr)
    · rename_i hname
      rw [if_neg hname]
      exact h.asked locker x r hr
  known locker x n hx := by
    obtain hx | ⟨rfl, rfl, -⟩ := (requests_write hwrite locker).mp hx
    · exact h.known locker x n hx
    · exact hknows

/-- A release takes the owner's records away from one locker. -/
theorem held_release (h : l.Backed knows) (name : String) (owner : Nat) :
    ((l.release name owner).table locker).held.get? x = some r ↔
      (l.table locker).held.get? x = some r ∧ (locker = name → r.owner ≠ owner) := by
  unfold Lockers.release
  rw [table_put]
  by_cases hname : locker = name
  · subst hname
    rw [if_pos rfl, LockTable.get?_release (h.asked locker x)]
    simp
  · rw [if_neg hname]
    simp [hname]

theorem release (h : l.Backed knows) (name : String) (owner : Nat) : (l.release name owner).Backed knows where
  asked locker x r hr := by
    obtain ⟨hheld, hother⟩ := (h.held_release name owner).mp hr
    have hasked := h.asked locker x r hheld
    unfold Lockers.release
    rw [table_put]
    split
    · rename_i hname
      subst hname
      rw [LockTable.requests_release, if_neg (hother rfl)]
      exact hasked
    · exact hasked
  known locker x n hx := by
    unfold Lockers.release at hx
    rw [table_put] at hx
    split at hx
    · rename_i hname
      subst hname
      rw [LockTable.requests_release] at hx
      split at hx
      · cases hx
      · exact h.known locker x n hx
    · exact h.known locker x n hx

theorem released (h : l.Backed knows) (owner : Nat) (names : List String) :
    (Checking.released owner names l).Backed knows := by
  induction names generalizing l with
  | nil => exact h
  | cons name names ih => exact ih (h.release name owner)

/-- Releases take the owner's records away from the lockers that are asked. -/
theorem held_released (h : l.Backed knows) (owner : Nat) (names : List String) :
    ((Checking.released owner names l).table locker).held.get? x = some r ↔
      (l.table locker).held.get? x = some r ∧ (locker ∈ names → r.owner ≠ owner) := by
  induction names generalizing l with
  | nil => simp [Checking.released]
  | cons name names ih =>
    have hrest := ih (h.release name owner)
    change ((Checking.released owner names (l.release name owner)).table locker).held.get? x = some r ↔ _
    rw [hrest, h.held_release, List.mem_cons]
    constructor
    · rintro ⟨⟨hheld, hfirst⟩, hnext⟩
      exact ⟨hheld, fun hmem => hmem.elim hfirst hnext⟩
    · rintro ⟨hheld, hall⟩
      exact ⟨⟨hheld, fun hname => hall (.inl hname)⟩, fun hmem => hall (.inr hmem)⟩

/-- An owner that all the lockers it knows are asked to release has no record left, and no other record
changes. -/
theorem held_released_all (h : l.Backed knows) {names : List String}
    (hall : ∀ locker, knows owner locker → locker ∈ names) :
    ((Checking.released owner names l).table locker).held.get? x = some r ↔
      (l.table locker).held.get? x = some r ∧ r.owner ≠ owner := by
  rw [h.held_released]
  constructor
  · rintro ⟨hheld, hother⟩
    refine ⟨hheld, fun howner => ?_⟩
    have hknown := h.known locker x r.owner (h.asked locker x r hheld)
    rw [howner] at hknown
    exact hother (hall locker hknown) howner
  · rintro ⟨hheld, hother⟩
    exact ⟨hheld, fun _ => hother⟩

end Lockers.Backed

/-! ## The lockers of a checking layer -/

/-- The lockers are the same, and no number of a transaction is forgotten. -/
def Beside (get : σ → Local) (issued : σ → Nat → Prop) (s s' : σ) : Prop :=
  (get s').lockers = (get s).lockers ∧ ∀ n, issued s n → issued s' n

/-- The checking layer takes its locks, which last for a lease, from the lockers in a part of the state.
Nothing else that it calls touches them.  The transactions of the inner backend have numbers, none of which
is issued twice. -/
structure Checking.OwnsLockers [Timed σ] [Metered σ] (c : Checking σ S T String) (lease : Nanos)
    (get : σ → Local) (set : σ → Local → σ) (number : T → Nat) (issued : σ → Nat → Prop) : Prop where
  locks : c.locks = (Local.locks lease).within get set
  get_set : ∀ s b, get (set s b) = b
  issued_set : ∀ s lockers n, issued s n → issued (set s { get s with lockers := lockers }) n
  allows : c.Allows (Beside get issued)
  txId : ∀ tx s, c.inner.txId tx s = number tx
  fresh : ∀ o s tx s', (c.inner.beginTx o).exec s = (.ok tx, s') → ¬ issued s (number tx) ∧ issued s' (number tx)

/-- A request has left the lockers in a state; the transaction knows the same lockers, and no number is
forgotten. -/
structure LeftLockers (get : σ → Local) (issued : σ → Nat → Prop) (j : Joint S T L) (s : σ) (l : Lockers)
    (p : Joint S T L × σ) : Prop where
  consistent : p.1.consistent = j.consistent
  stores : p.1.stores = j.stores
  lockers : (get p.2).lockers = l
  issued : ∀ n, issued s n → issued p.2 n

/-! ## Requests that leave the lockers alone -/

section

variable {P : σ → σ → Prop} {s₀ : σ} {j : Joint S T L}

/-- The transaction knows the same lockers, and what has happened below is allowed. -/
def Beyond (P : σ → σ → Prop) (j : Joint S T L) (s₀ : σ) (p : Joint S T L × σ) : Prop :=
  p.1.consistent = j.consistent ∧ p.1.stores = j.stores ∧ P s₀ p.2

theorem beyond_below {act : Act σ α} (h : act.Ensures (P s₀) fun _ => True) :
    (Checking.below act).Ensures (Beyond P j s₀) fun _ => True :=
  h.on (fun _ hp => hp.2.2) fun _ _ hp ht => ⟨hp.1, hp.2.1, ht⟩

theorem beyond_change {f : Joint S T L → Joint S T L}
    (hf : ∀ j, (f j).consistent = j.consistent ∧ (f j).stores = j.stores) :
    (Checking.change f).Ensures (Beyond P j s₀) fun _ => True :=
  Act.ensures_update fun p hp => ⟨(hf p.1).1.trans hp.1, (hf p.1).2.trans hp.2.1, hp.2.2⟩

theorem beyond_active {k : Joint S T L} :
    (Act.ofOutcome k.ensureActive).Ensures (Beyond P j s₀) fun _ => True :=
  Act.ensures_ofOutcome fun _ _ => trivial

end

namespace Checking.Allows

variable [Timed σ] [Metered σ] {c : Checking σ S T L} {P : σ → σ → Prop} {s₀ : σ} {j : Joint S T L}

theorem ensures_checkLocks (h : c.Allows P) (k : Joint S T L) :
    (c.checkLocks k).Ensures (P s₀) fun _ => True := by
  refine (Act.ensures_forM (R := fun _ => True) fun _ _ => ?_).mono fun _ _ => trivial
  exact (Act.ensures_asks _).bind fun _ _ => h.ensures (h.check _ _)

theorem ensures_checkValue (h : c.Allows P) (k : Joint S T L) (column : LockedColumn) (e : Option Bytes) :
    (c.checkValue k column e).Ensures (P s₀) fun _ => True := by
  unfold checkValue
  cases k.stores.get? column.store with
  | none => exact Act.ensures_throw _
  | some opened =>
    refine (Act.ensures_asks _).bind fun draw _ => ?_
    refine Act.Ensures.bind (Operation.run_ensures (h.ensures (h.read _ _ _ _)) ?_ ?_) fun entries _ => ?_
    · exact fun s d hs => h.trans _ _ _ hs (h.sleep d s)
    · exact fun _ hs => hs
    · dsimp only
      split
      · exact Act.ensures_throw _
      · exact Act.ensures_pure trivial

theorem ensures_checkValues (h : c.Allows P) (k : Joint S T L) :
    (c.checkValues k).Ensures (P s₀) fun _ => True :=
  (Act.ensures_forM fun _ _ => h.ensures_checkValue k _ _).mono fun _ _ => trivial

theorem beyond_prepare (h : c.Allows P) : c.prepare.Ensures (Beyond P j s₀) fun _ => True := by
  unfold prepare
  refine (Act.ensures_asks _).bind fun k _ => beyond_active.bind fun _ _ => ?_
  dsimp only
  split
  · refine (beyond_below (h.ensures_checkLocks k)).bind fun _ _ => ?_
    refine (beyond_below (h.ensures_checkValues k)).bind fun _ _ => ?_
    exact (beyond_change fun _ => ⟨rfl, rfl⟩).bind fun _ _ => Act.ensures_pure trivial
  · exact Act.ensures_pure trivial

/-- Only a lock and the end of the transaction go further than the calls below. -/
theorem beyond_run (h : c.Allows P) {r : JointRequest σ S L} (hlock : r.isLock = false)
    (hends : r.isEnding = false) (hothers : ∀ change, r = .meanwhile change → ∀ s, P s (change s)) :
    (r.run c).Ensures (Beyond P j s₀) fun _ => True := by
  cases r with
  | meanwhile change =>
    exact beyond_below (Act.ensures_update fun s hs => h.trans _ _ _ hs (hothers change rfl s))
  | read store key slice =>
    refine Act.Ensures.bind (P := fun _ => True) ?_ fun _ _ => Act.ensures_pure trivial
    exact (Act.ensures_asks _).bind fun _ _ => beyond_below (h.ensures (h.read _ _ _ _))
  | prepare => exact h.beyond_prepare.bind fun _ _ => Act.ensures_pure trivial
  | lock => cases hlock
  | mutate store key m =>
    exact h.beyond_prepare.bind fun _ _ => (Act.ensures_asks _).bind fun _ _ =>
      beyond_below (h.ensures (h.mutate _ _ _ _))
  | mutateMany batch =>
    refine h.beyond_prepare.bind fun b _ => ?_
    refine Act.Ensures.bind (P := fun _ => True) (beyond_below (Act.ensures_update ?_)) fun _ _ => ?_
    · exact fun s hs => h.trans _ _ _ hs (h.count (fun m => m.countBatch b) s)
    · exact (Act.ensures_asks _).bind fun _ _ => beyond_below (h.ensures (h.mutateMany _ _))
  | commit => cases hends
  | rollback => cases hends

end Checking.Allows

/-! ## Locks and releases -/

namespace Checking

variable {c : Checking σ S T L} {j : Joint S T L} {s s₁ s₂ : σ}

/-- A commit that comes to releasing the locks succeeds if the consistent transaction is committed too. -/
theorem commit_releasing (hactive : j.ensureActive = .ok ()) {u v : Unit}
    (hcommit : (c.inner.commit j.inconsistent).exec s = (.ok u, s₁))
    (hrelease : (c.releaseLocks j).exec s₁ = (.ok v, s₂)) :
    c.commit.exec (j, s) =
      match (c.inner.commit j.consistent).exec s₂ with
      | (.error f, s') => (.error f, (j, s'))
      | (.ok _, s') => (.ok (), ({ j with state := .committed }, s')) := by
  unfold commit
  rw [Act.exec_bind_ok (exec_joint (j, s))]
  dsimp only
  rw [hactive, Act.exec_bind_ok (Act.exec_ofOutcome ..)]
  refine (Act.exec_bind_ok (exec_below hcommit j) _).trans ?_
  refine (Act.exec_bind_ok (exec_below hrelease j) _).trans ?_
  cases hsecond : (c.inner.commit j.consistent).exec s₂ with
  | mk o s' =>
    cases o with
    | error f => exact Act.exec_bind_error (exec_below hsecond j) _
    | ok w => exact Act.exec_bind_ok (exec_below hsecond j) _

/-- A rollback of an active transaction releases the locks and then rolls both of its parts back. -/
theorem rollback_releasing (hactive : j.ensureActive = .ok ()) {o : Outcome Unit}
    (hrelease : (c.releaseLocks j).exec s = (o, s₁)) :
    (c.rollback.exec (j, s)).2 = ({ j with state := .rolledBack },
      ((c.inner.rollback j.consistent).exec ((c.inner.rollback j.inconsistent).exec s₁).2).2) := by
  have hattempt (k : Joint S T L) : (below (c.releaseLocks j)).attempt.exec (k, s) = (.ok o, (k, s₁)) := by
    rw [Act.exec_attempt, exec_below hrelease]
  unfold rollback
  rw [Act.exec_bind_ok (exec_joint (j, s))]
  dsimp only
  rw [hactive, Act.exec_bind_ok (Act.exec_ofOutcome ..), Act.exec_bind_ok (exec_change ..)]
  rw [Act.exec_bind_ok (hattempt _)]
  -- Whatever the two rollbacks come to, they are both made.
  rfl

end Checking

namespace Checking.OwnsLockers

variable [Timed σ] [Metered σ] {c : Checking σ S T String} {lease : Nanos} {get : σ → Local}
  {set : σ → Local → σ} {number : T → Nat} {issued : σ → Nat → Prop} {j : Joint S T String} {s s' : σ}

theorem beside_trans (h : c.OwnsLockers lease get set number issued) {s'' : σ} (h₁ : Beside get issued s s')
    (h₂ : Beside get issued s' s'') : Beside get issued s s'' :=
  h.allows.trans _ _ _ h₁ h₂

/-- A store that is opened has the locker of its name. -/
theorem locker_opened (h : c.OwnsLockers lease get set number issued) {name : String} {serial : Nat}
    {store : CheckedStore S String} (hexec : (c.opened name serial).exec s = (.ok store, s')) :
    store.locker = store.name ++ c.suffix := by
  unfold opened at hexec
  rw [Act.exec_bind] at hexec
  split at hexec
  · rename_i inner s₁ hinner
    have hlocker : (c.locks.locker (name ++ c.suffix)).exec s₁ = (.ok (name ++ c.suffix), set s₁ (get s₁)) := by
      rw [h.locks]
      rfl
    rw [Act.exec_bind_ok hlocker] at hexec
    cases hexec
    rfl
  · cases hexec

/-- A lock is written for the number of the consistent transaction. -/
theorem exec_write (h : c.OwnsLockers lease get set number issued) (locker : String) (target : LockTarget)
    (owner : Nat) (s : σ) :
    (∃ f s', (c.locks.write locker target owner).exec s = (.error f, s') ∧ Beside get issued s s') ∨
      ∃ time lockers s', (c.locks.write locker target owner).exec s = (.ok (), s') ∧
        (get s).lockers.write time lease locker owner target = .ok lockers ∧
        (get s').lockers = lockers ∧ ∀ n, issued s n → issued s' n := by
  rw [h.locks, LockService.exec_write_within]
  cases hwrite : (get s).lockers.write (now (get s)) lease locker owner target with
  | error f =>
    rw [locks_write_error hwrite]
    refine .inl ⟨f, _, rfl, ?_, fun n hn => h.issued_set s (get s).lockers n hn⟩
    rw [h.get_set]
  | ok lockers =>
    rw [locks_write_ok hwrite]
    refine .inr ⟨_, lockers, _, rfl, hwrite, ?_, h.issued_set s lockers⟩
    rw [h.get_set]

/-- A lock is refused and the lockers stay as they are, or it is taken and noted with its locker. -/
theorem lock_effect (h : c.OwnsLockers lease get set number issued) (store : CheckedStore S String)
    (key column : Bytes) (e : Option Bytes) (j : Joint S T String) (s : σ) :
    LeftLockers get issued j s (get s).lockers ((c.lock store key column e).exec (j, s)).2 ∨
      ∃ time lockers, (get s).lockers.write time lease store.locker (number j.consistent) ⟨key, column⟩ =
          .ok lockers ∧
        ((c.lock store key column e).exec (j, s)).2.1 = ({ j with lockAttempted := true } : Joint S T String).expect
          store.name (store.store, store.locker) ⟨key, column⟩ e ∧
        (get ((c.lock store key column e).exec (j, s)).2.2).lockers = lockers ∧
        ∀ n, issued s n → issued ((c.lock store key column e).exec (j, s)).2.2 n := by
  obtain ⟨f, he, -⟩ | ⟨-, he⟩ := lock_cases c j s store key column e
  · rw [he]
    exact .inl ⟨rfl, rfl, rfl, fun _ hn => hn⟩
  · rw [he, h.txId]
    obtain ⟨f, s', hw, hlockers, hissued⟩ | ⟨time, lockers, s', hw, hwrite, hlockers, hissued⟩ :=
      h.exec_write store.locker ⟨key, column⟩ (number j.consistent) s
    · rw [hw]
      exact .inl ⟨rfl, rfl, hlockers, hissued⟩
    · rw [hw]
      exact .inr ⟨time, lockers, hwrite, rfl, hlockers, hissued⟩

/-- The state after an owner has released its locks in a locker. -/
def releasedIn (get : σ → Local) (set : σ → Local → σ) (owner : Nat) (s : σ) (opened : S × String) : σ :=
  set s { get s with lockers := (get s).lockers.release opened.2 owner }

theorem lockers_releasedIn (h : c.OwnsLockers lease get set number issued) (owner : Nat)
    (opened : List (S × String)) (s : σ) :
    (get (opened.foldl (releasedIn get set owner) s)).lockers =
        released owner (opened.map (·.2)) (get s).lockers ∧
      ∀ n, issued s n → issued (opened.foldl (releasedIn get set owner) s) n := by
  induction opened generalizing s with
  | nil => exact ⟨rfl, fun _ hn => hn⟩
  | cons x opened ih =>
    obtain ⟨hlockers, hissued⟩ := ih (releasedIn get set owner s x)
    have hone : (get (releasedIn get set owner s x)).lockers = (get s).lockers.release x.2 owner := by
      unfold releasedIn
      rw [h.get_set]
    refine ⟨?_, fun n hn => hissued n (h.issued_set s _ n hn)⟩
    rw [List.foldl_cons, hlockers, hone]
    rfl

/-- The locks of a transaction are released in all lockers that it knows. -/
theorem exec_releaseLocks (h : c.OwnsLockers lease get set number issued) (j : Joint S T String) (s : σ) :
    ∃ s', (c.releaseLocks j).exec s = (.ok (), s') ∧
      (get s').lockers = released (number j.consistent) (j.stores.values.map (·.2)) (get s).lockers ∧
      ∀ n, issued s n → issued s' n := by
  have hone (x : S × String) (s : σ) :
      (Act.asks (c.inner.txId j.consistent) >>= fun owner => (c.locks.release x.2 owner).attempt).exec s =
        (.ok (.ok ()), releasedIn get set (number j.consistent) s x) := by
    rw [Act.exec_bind_ok (Act.exec_asks ..), h.txId, h.locks]
    rfl
  obtain ⟨hlockers, hissued⟩ := h.lockers_releasedIn (number j.consistent) j.stores.values s
  refine ⟨_, ?_, hlockers, hissued⟩
  unfold releaseLocks
  rw [Act.exec_bind_ok (Act.exec_mapM hone ..), firstFailure_eq_ok, Act.exec_ofOutcome]

/-- The lockers after the locks of a transaction were released. -/
def freed (get : σ → Local) (number : T → Nat) (j : Joint S T String) (s : σ) : Lockers :=
  released (number j.consistent) (j.stores.values.map (·.2)) (get s).lockers

/-- A commit releases the locks, or it fails before it comes to that. -/
theorem commit_effect (h : c.OwnsLockers lease get set number issued) (j : Joint S T String) (s : σ) :
    LeftLockers get issued j s (freed get number j s) (c.commit.exec (j, s)).2 ∨
      LeftLockers get issued j s (get s).lockers (c.commit.exec (j, s)).2 ∧
        ∃ f, (c.commit.exec (j, s)).1 = .error f := by
  obtain ⟨f, he, -⟩ | ⟨he, -⟩ := ensureActive_cases j
  · rw [commit_ended he]
    exact .inr ⟨⟨rfl, rfl, rfl, fun _ hn => hn⟩, f, rfl⟩
  have hfirst := h.allows.commit j.inconsistent s
  cases hcommit : (c.inner.commit j.inconsistent).exec s with
  | mk o s₁ =>
    rw [hcommit] at hfirst
    cases o with
    | error f =>
      rw [commit_refused he hcommit]
      exact .inr ⟨⟨rfl, rfl, hfirst.1, hfirst.2⟩, f, rfl⟩
    | ok u =>
      obtain ⟨s₂, hrelease, hlockers, hissued⟩ := h.exec_releaseLocks j s₁
      rw [hfirst.1] at hlockers
      have hsecond := h.allows.commit j.consistent s₂
      have hafter : (get ((c.inner.commit j.consistent).exec s₂).2).lockers = freed get number j s :=
        hsecond.1.trans hlockers
      have hkept : ∀ n, issued s n → issued ((c.inner.commit j.consistent).exec s₂).2 n :=
        fun n hn => hsecond.2 n (hissued n (hfirst.2 n hn))
      left
      rw [commit_releasing he hcommit hrelease]
      split
      · rename_i f s₃ hexec
        rw [hexec] at hafter hkept
        exact ⟨rfl, rfl, hafter, hkept⟩
      · rename_i w s₃ hexec
        rw [hexec] at hafter hkept
        exact ⟨rfl, rfl, hafter, hkept⟩

/-- A rollback of an active transaction releases the locks. -/
theorem rollback_effect (h : c.OwnsLockers lease get set number issued) (j : Joint S T String) (s : σ) :
    LeftLockers get issued j s (freed get number j s) (c.rollback.exec (j, s)).2 ∨
      LeftLockers get issued j s (get s).lockers (c.rollback.exec (j, s)).2 ∧ j.state ≠ .active := by
  obtain ⟨f, he, hended⟩ | ⟨he, -⟩ := ensureActive_cases j
  · rw [rollback_ended he]
    exact .inr ⟨⟨rfl, rfl, rfl, fun _ hn => hn⟩, hended⟩
  obtain ⟨s₁, hrelease, hlockers, hissued⟩ := h.exec_releaseLocks j s
  have hfirst := h.allows.rollback j.inconsistent s₁
  have hsecond := h.allows.rollback j.consistent ((c.inner.rollback j.inconsistent).exec s₁).2
  have hboth := h.beside_trans hfirst hsecond
  left
  rw [rollback_releasing he hrelease]
  exact ⟨rfl, rfl, hboth.1.trans hlockers, fun n hn => hboth.2 n (hissued n hn)⟩

/-- A transaction is begun with a consistent part of a new number, and knows no locker. -/
theorem begun_fresh (h : c.OwnsLockers lease get set number issued) {o : TxOptions}
    (hexec : (c.begun o).exec s = (.ok j, s')) : Beside get issued s s' ∧ ¬ issued s (number j.consistent) ∧
      issued s' (number j.consistent) ∧ j.stores = .empty := by
  unfold begun at hexec
  rw [Act.exec_bind] at hexec
  have hfirst := h.allows.beginTx o s
  split at hexec
  · rename_i inconsistent s₁ hinconsistent
    rw [hinconsistent] at hfirst
    have hsecond := h.allows.beginTx (o.mergedWith c.inner.features.required) s₁
    rw [Act.exec_bind_ok (Act.exec_attempt ..)] at hexec
    cases hconsistent : (c.inner.beginTx (o.mergedWith c.inner.features.required)).exec s₁ with
    | mk outcome s₂ =>
      rw [hconsistent] at hexec hsecond
      cases outcome with
      | error f => cases hexec
      | ok consistent =>
        cases hexec
        obtain ⟨hfresh, hissued⟩ := h.fresh _ _ _ _ hconsistent
        exact ⟨h.beside_trans hfirst hsecond, fun hn => hfresh (hfirst.2 _ hn), hissued, rfl⟩
  · cases hexec

end Checking.OwnsLockers

end RowGraph
