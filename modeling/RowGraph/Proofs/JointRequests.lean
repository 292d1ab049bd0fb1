import Mathlib.Data.List.Induction
import RowGraph.Proofs.Views
import RowGraph.Storage.Joint

/-!
# Requests to one joint transaction

What can be asked of one joint transaction over any backend and any lockers, with anything happening
below between two requests.  A noted backend writes down in which transaction every mutation is forwarded
to it and does nothing else (`run_noted`).  `serve` is what becomes of a list of requests; whatever is kept
by every request is kept by a run (`serve_invariant`).
-/

namespace RowGraph

/-! ## Noting mutations -/

/-- The state of the layers below, with the mutations that were forwarded to them. -/
structure Noted (σ T : Type) where
  base : σ
  /-- The transactions that mutations were forwarded in, in order. -/
  forwarded : List T

namespace Noted

variable {σ S T L α : Type}

instance [Timed σ] : Timed (Noted σ T) :=
  ⟨fun s => Timed.clock s.base, fun s c => { s with base := Timed.setClock s.base c }⟩

instance [Metered σ] : Metered (Noted σ T) :=
  ⟨fun s => Metered.metrics s.base, fun s m => { s with base := Metered.setMetrics s.base m }⟩

/-- An act of the layers below, of which nothing is noted. -/
def lift (act : Act σ α) : Act (Noted σ T) α := act.on base fun b s => { s with base := b }

/-- A mutation in a transaction, which is noted. -/
def forward (tx : T) (act : Act σ α) : Act (Noted σ T) α := do
  Act.update fun s => { s with forwarded := s.forwarded ++ [tx] }
  lift act

/-- The backend whose mutations are noted. -/
def backend (b : Backend σ S T) : Backend (Noted σ T) S T :=
  { b.within base (fun s t => { s with base := t }) with
    mutate := fun store key m tx => forward tx (b.mutate store key m tx)
    mutateMany := fun batch tx => forward tx (b.mutateMany batch tx) }

/-- The lock service beside noted mutations. -/
def locks (l : LockService σ L) : LockService (Noted σ T) L where
  locker := fun name => lift (l.locker name)
  write := fun locker target owner => lift (l.write locker target owner)
  check := fun locker owner => lift (l.check locker owner)
  release := fun locker owner => lift (l.release locker owner)

/-- Nothing is noted of an act of the layers below. -/
theorem ensures_lift (act : Act σ α) (log : List T) :
    (lift act).Ensures (fun s => s.forwarded = log) fun _ => True :=
  fun _ hs => ⟨hs, fun _ _ => trivial⟩

end Noted

/-- The checking layer over a backend whose mutations are noted. -/
def Checking.noted {σ S T L : Type} (c : Checking σ S T L) : Checking (Noted σ T) S T L where
  inner := Noted.backend c.inner
  locks := Noted.locks c.locks
  suffix := c.suffix
  readBudget := c.readBudget
  policy := c.policy
  draw := fun s => c.draw s.base

/-! ## What is asked of a joint transaction -/

/-- What can be asked of one joint transaction, or happen meanwhile. -/
inductive JointRequest (σ S L : Type) where
  /-- Others do something to the layers below. -/
  | meanwhile (change : σ → σ)
  | read (store : CheckedStore S L) (key : Bytes) (slice : Slice)
  /-- Checks everything as before a mutation. -/
  | prepare
  | lock (store : CheckedStore S L) (key column : Bytes) (expected : Option Bytes)
  | mutate (store : CheckedStore S L) (key : Bytes) (mutation : Mutation)
  | mutateMany (batch : Batch)
  | commit
  | rollback

namespace JointRequest

variable {σ τ S T L : Type}

/-- Serves a request. -/
def run [Timed σ] [Metered σ] (c : Checking σ S T L) :
    JointRequest σ S L → Act (Joint S T L × σ) Unit
  | meanwhile change => Checking.below (Act.update change)
  | read store key slice => do let _ ← c.read store key slice
  | prepare => do let _ ← c.prepare
  | lock store key column expected => c.lock store key column expected
  | mutate store key mutation => c.mutate store key mutation
  | mutateMany batch => c.mutateMany batch
  | commit => c.commit
  | rollback => c.rollback

/-- The request when what others do is done to a part of the state. -/
def within (change : (σ → σ) → τ → τ) : JointRequest σ S L → JointRequest τ S L
  | meanwhile f => meanwhile (change f)
  | read store key slice => read store key slice
  | prepare => prepare
  | lock store key column expected => lock store key column expected
  | mutate store key mutation => mutate store key mutation
  | mutateMany batch => mutateMany batch
  | commit => commit
  | rollback => rollback

/-- The request over a backend whose mutations are noted. -/
def noted (r : JointRequest σ S L) : JointRequest (Noted σ T) S L :=
  r.within fun f s => { s with base := f s.base }

/-- Is everything checked before the request goes on? -/
def isChecked : JointRequest σ S L → Bool
  | prepare | mutate .. | mutateMany _ => true
  | _ => false

/-- Is a lock asked for? -/
def isLock : JointRequest σ S L → Bool
  | lock .. => true
  | _ => false

end JointRequest

/-- A request that was served, with the states before and after it. -/
structure Served (σ S T L : Type) where
  request : JointRequest σ S L
  outcome : Outcome Unit
  before : Joint S T L × Noted σ T
  after : Joint S T L × Noted σ T

namespace Served

variable {σ S T L : Type}

/-- A request for a lock that comes before the transaction has ended or begun to mutate. -/
def AsksInTime (m : Served σ S T L) : Prop :=
  m.request.isLock = true ∧ m.before.1.ensureActive = .ok () ∧ m.before.1.mutationsStarted = false

/-- The lock that was taken, with what its column is expected to hold. -/
def lock? (m : Served σ S T L) : Option (CheckedStore S L × LockTarget × Option Bytes) :=
  match m.request, m.outcome with
  | .lock store key column expected, .ok _ => some (store, ⟨key, column⟩, expected)
  | _, _ => none

end Served

variable {σ S T L : Type} [Timed σ] [Metered σ]

/-- Serves a request. -/
def JointRequest.served (c : Checking σ S T L) (p : Joint S T L × Noted σ T)
    (r : JointRequest σ S L) : Served σ S T L :=
  ⟨r, ((r.noted.run c.noted).exec p).1, p, ((r.noted.run c.noted).exec p).2⟩

/-- The requests served one after another. -/
def serve (c : Checking σ S T L) :
    List (JointRequest σ S L) → Joint S T L × Noted σ T → List (Served σ S T L)
  | [], _ => []
  | r :: rs, p => r.served c p :: serve c rs (r.served c p).after

/-- The state after the requests. -/
def finish (c : Checking σ S T L) (rs : List (JointRequest σ S L)) (p : Joint S T L × Noted σ T) :
    Joint S T L × Noted σ T :=
  rs.foldl (fun q r => (r.served c q).after) p

section

variable {c : Checking σ S T L} {p : Joint S T L × Noted σ T}

theorem serve_append (rs rs' : List (JointRequest σ S L)) (p : Joint S T L × Noted σ T) :
    serve c (rs ++ rs') p = serve c rs p ++ serve c rs' (finish c rs p) := by
  induction rs generalizing p with
  | nil => rfl
  | cons r rs ih =>
    rw [List.cons_append, serve, ih, serve, List.cons_append]
    rfl

theorem finish_append (rs : List (JointRequest σ S L)) (r : JointRequest σ S L) :
    finish c (rs ++ [r]) p = (r.served c (finish c rs p)).after := by
  unfold finish
  rw [List.foldl_append]
  rfl

/-- Whatever holds at first and is kept by every request holds after every run. -/
theorem serve_invariant {I : List (Served σ S T L) → Joint S T L × Noted σ T → Prop}
    (hnew : I [] p)
    (hstep : ∀ past q (r : JointRequest σ S L), I past q → I (past ++ [r.served c q]) (r.served c q).after)
    (rs : List (JointRequest σ S L)) : I (serve c rs p) (finish c rs p) := by
  induction rs using List.reverseRecOn with
  | nil => exact hnew
  | append_singleton rs r ih =>
    rw [serve_append, finish_append]
    exact hstep _ _ _ ih

theorem request_mem {rs : List (JointRequest σ S L)} {m : Served σ S T L} (h : m ∈ serve c rs p) :
    m.request ∈ rs := by
  induction rs generalizing p with
  | nil => cases h
  | cons r rs ih =>
    obtain rfl | h := List.mem_cons.mp h
    · exact List.mem_cons_self
    · exact List.mem_cons_of_mem _ (ih h)

/-- What was served before and after one of the requests. -/
theorem exists_of_serve {rs : List (JointRequest σ S L)} {past rest : List (Served σ S T L)}
    {m : Served σ S T L} (h : serve c rs p = past ++ m :: rest) :
    ∃ (rs₁ : List (JointRequest σ S L)) (r : JointRequest σ S L) (rs₂ : List (JointRequest σ S L)),
      past = serve c rs₁ p ∧ m = r.served c (finish c rs₁ p) ∧ rest = serve c rs₂ m.after := by
  induction rs generalizing past p with
  | nil => simp [serve] at h
  | cons r rs ih =>
    cases past with
    | nil =>
      obtain ⟨rfl, rfl⟩ := List.cons_eq_cons.mp h
      exact ⟨[], r, rs, rfl, rfl, rfl⟩
    | cons x past =>
      obtain ⟨rfl, htail⟩ := List.cons_eq_cons.mp h
      obtain ⟨rs₁, r', rs₂, rfl, hm, hrest⟩ := ih htail
      exact ⟨r :: rs₁, r', rs₂, rfl, hm, hrest⟩

end

/-! ## Noting changes nothing -/

namespace Checking

variable {σ S T L α : Type}

/-- What is left of a state when nothing is noted. -/
def unnoted (p : Joint S T L × Noted σ T) : Joint S T L × σ := (p.1, p.2.base)

theorem shows_below {act : Act (Noted σ T) α} {act' : Act σ α} (h : act.Shows Noted.base act') :
    (below act).Shows (unnoted (S := S) (L := L)) (below act') := by
  rintro ⟨j, s⟩
  have hs := h s
  unfold below unnoted
  rw [Act.exec_on, Act.exec_on, hs]

theorem shows_joint : (joint : Act (Joint S T L × Noted σ T) _).Shows unnoted joint := fun _ => rfl

theorem shows_change (f : Joint S T L → Joint S T L) :
    (change f : Act (Joint S T L × Noted σ T) _).Shows unnoted (change f) := fun _ => rfl

section

variable (c : Checking σ S T L)

theorem shows_owned {act : Nat → Act (Noted σ T) α} {act' : Nat → Act σ α}
    (h : ∀ owner, (act owner).Shows Noted.base (act' owner)) (tx : T) :
    (Act.asks (c.noted.inner.txId tx) >>= act).Shows Noted.base
      (Act.asks (c.inner.txId tx) >>= act') := by
  have hasks : (Act.asks (c.noted.inner.txId tx)).Shows Noted.base (Act.asks (c.inner.txId tx)) :=
    fun _ => rfl
  exact hasks.bind h

theorem shows_checkLocks (j : Joint S T L) : (c.noted.checkLocks j).Shows Noted.base (c.checkLocks j) :=
  Act.shows_forM (fun _ => shows_owned c (fun _ _ => rfl) _) _

theorem shows_lock (store : CheckedStore S L) (key column : Bytes) (e : Option Bytes) :
    (c.noted.lock store key column e).Shows unnoted (c.lock store key column e) := by
  unfold lock
  refine shows_joint.bind fun j => (Act.shows_ofOutcome _).bind fun _ => ?_
  dsimp only
  split
  · exact (Act.shows_throw _)
  · refine (shows_change _).bind fun _ => ?_
    exact (shows_below (shows_owned c (fun _ _ => rfl) _)).bind fun _ => shows_change _

theorem shows_releaseLocks (j : Joint S T L) : (c.noted.releaseLocks j).Shows Noted.base (c.releaseLocks j) :=
  (Act.shows_mapM (fun _ => shows_owned c (fun _ => Act.Shows.attempt fun _ => rfl) _) _).bind
    fun _ => Act.shows_ofOutcome _

end

variable [Timed σ] (c : Checking σ S T L)


theorem shows_checkValue (j : Joint S T L) (column : LockedColumn) (e : Option Bytes) :
    (c.noted.checkValue j column e).Shows Noted.base (c.checkValue j column e) := by
  unfold checkValue
  cases j.stores.get? column.store with
  | none => exact Act.shows_throw _
  | some opened =>
    have hdraw : (Act.asks c.noted.draw).Shows (Noted.base (T := T)) (Act.asks c.draw) := fun _ => rfl
    refine hdraw.bind fun draw => ?_
    have hreading : Operation.Shows Noted.base (c.noted.reading column.store draw : Operation (Noted σ T))
        (c.reading column.store draw) :=
      ⟨rfl, rfl, rfl, rfl, fun _ => rfl, fun _ => rfl, fun _ => rfl, fun _ _ => rfl⟩
    refine (hreading.run fun _ => rfl).bind fun entries => ?_
    dsimp only
    split
    · exact Act.shows_throw _
    · exact Act.shows_pure _

theorem shows_checkValues (j : Joint S T L) : (c.noted.checkValues j).Shows Noted.base (c.checkValues j) :=
  Act.shows_forM (fun x : LockedColumn × Option Bytes => shows_checkValue c j x.1 x.2) _

theorem shows_prepare : c.noted.prepare.Shows unnoted c.prepare := by
  unfold prepare
  refine shows_joint.bind fun j => (Act.shows_ofOutcome _).bind fun _ => ?_
  dsimp only
  split
  · refine (shows_below (shows_checkLocks c j)).bind fun _ => ?_
    refine (shows_below (shows_checkValues c j)).bind fun _ => ?_
    exact (shows_change _).bind fun _ => Act.shows_pure _
  · exact Act.shows_pure _

/-- Noting mutations changes nothing: over the backend alone every request has the same outcome and
leaves the same. -/
theorem run_noted [Metered σ] (r : JointRequest σ S L) : (r.noted.run c.noted).Shows unnoted (r.run c) := by
  cases r with
  | meanwhile change => exact fun _ => rfl
  | read store key slice =>
    exact (shows_joint.bind fun _ => shows_below fun _ => rfl).bind fun _ => Act.shows_pure _
  | prepare => exact (shows_prepare c).bind fun _ => Act.shows_pure _
  | lock store key column e => exact shows_lock c store key column e
  | mutate store key m => exact (shows_prepare c).bind fun _ => shows_joint.bind fun _ => shows_below fun _ => rfl
  | mutateMany batch =>
    refine (shows_prepare c).bind fun _ => ?_
    refine (shows_below fun _ => rfl).bind fun _ => ?_
    exact shows_joint.bind fun _ => shows_below fun _ => rfl
  | commit =>
    refine shows_joint.bind fun j => (Act.shows_ofOutcome _).bind fun _ => ?_
    refine (shows_below fun _ => rfl).bind fun _ => ?_
    refine (shows_below (shows_releaseLocks c j)).bind fun _ => ?_
    exact (shows_below fun _ => rfl).bind fun _ => shows_change _
  | rollback =>
    refine shows_joint.bind fun j => (Act.shows_ofOutcome _).bind fun _ => ?_
    refine (shows_change _).bind fun _ => ?_
    refine (shows_below (shows_releaseLocks c j)).attempt.bind fun _ => ?_
    refine (shows_below fun _ => rfl).attempt.bind fun _ => ?_
    exact (shows_below fun _ => rfl).attempt.bind fun _ => Act.shows_ofOutcome _
end Checking

end RowGraph
