import RowGraph.Proofs.LayerRuns

/-!
# After the end of a transaction

A joint transaction that was committed or rolled back with success has ended for good (`keeps_ended`).
Whatever needs an active transaction is refused from then on and leaves everything as it is; reads are not
refused.

* `stays_ended`: what becomes of requests to transactions that have ended, in every run over memory.
* `read_after_commit`: a read that is served after the transaction was committed.
-/

namespace RowGraph

variable {σ S T L : Type}

namespace JointRequest

/-- What is said of a transaction that the request has ended. -/
def refusal? : JointRequest σ S L → Option String
  | commit => some "transaction already committed"
  | rollback => some "transaction already rolled back"
  | _ => none

/-- Is the request refused once the transaction has ended? -/
def needsActive : JointRequest σ S L → Bool
  | meanwhile _ | read .. => false
  | _ => true

end JointRequest

/-- A request that has ended a joint transaction with success, of which a text is said from then on. -/
def MadeLayerCall.EndsWell (m : MadeLayerCall σ S T L) (t : Nat) (text : String) : Prop :=
  ∃ r, m.call = .given (.joint t) r ∧ r.refusal? = some text ∧ m.outcome = .ok ()

/-- What becomes of requests to transactions that have ended. -/
structure StaysEnded (w : LocalSetup) (made : List (MadeLayerCall Local StoreHandle TxHandle String)) :
    Prop where
  /-- What needs an active transaction is invalid and changes nothing: neither what is stored, nor any lock,
  nor any transaction. -/
  refused : ∀ past e between m rest t text r, made = past ++ e :: (between ++ m :: rest) → e.EndsWell t text →
    m.call = .given (.joint t) r → r.needsActive = true →
    m.outcome = .error (.invalid text) ∧ m.after = m.before
  /-- A read finds what is stored, and changes nothing either. -/
  reads : ∀ past e between m rest t text store key slice, made = past ++ e :: (between ++ m :: rest) →
    e.EndsWell t text → m.call = .given (.joint t) (.read store key slice) →
    (w.backend.read store key slice (.joint t)).exec m.before =
      (.ok ((m.before.base.memory.table store.store.number).read key slice), m.before) ∧
    m.outcome = .ok () ∧ m.after = m.before

/-! ## Requests to a transaction that has ended -/

namespace Checking

variable {c : Checking σ S T L} {j j' : Joint S T L} {s : σ} {f : Failure}

theorem ensureActive_congr (h : j'.state = j.state) : j'.ensureActive = j.ensureActive := by
  unfold Joint.ensureActive
  rw [h]

theorem lock_ended (h : j.ensureActive = .error f) (store : CheckedStore S L) (key column : Bytes)
    (e : Option Bytes) : (c.lock store key column e).exec (j, s) = (.error f, (j, s)) := by
  unfold lock
  rw [Act.exec_bind_ok (exec_joint (j, s))]
  exact Act.exec_bind_error (by rw [Act.exec_ofOutcome, h]) _

/-- A rollback of an active transaction has it rolled back, whatever fails. -/
theorem rollback_active (h : j.ensureActive = .ok ()) : (c.rollback.exec (j, s)).2.1.state = .rolledBack := by
  unfold rollback
  rw [Act.exec_bind_ok (exec_joint (j, s))]
  dsimp only
  rw [h, Act.exec_bind_ok (Act.exec_ofOutcome ..), Act.exec_bind_ok (exec_change ..)]
  rfl

variable [Timed σ] [Metered σ] {r : JointRequest σ S L} {text : String}

theorem run_ended (h : j.ensureActive = .error f) (hr : r.needsActive = true) :
    (r.run c).exec (j, s) = (.error f, (j, s)) := by
  cases r with
  | meanwhile | read => cases hr
  | prepare => exact Act.exec_bind_error (prepare_ended h) _
  | lock store key column e => exact lock_ended h store key column e
  | mutate => exact Act.exec_bind_error (prepare_ended h) _
  | mutateMany => exact Act.exec_bind_error (prepare_ended h) _
  | commit => exact commit_ended h
  | rollback => exact rollback_ended h

/-- A transaction that has ended stays in its state. -/
theorem state_ended (h : j.ensureActive = .error f) (r : JointRequest σ S L) :
    ((r.run c).exec (j, s)).2.1.state = j.state := by
  cases hends : r.isEnding with
  | false => exact (state_run hends (j, s) rfl).1
  | true =>
    have hr : r.needsActive = true := by
      cases r with
      | commit | rollback => rfl
      | _ => cases hends
    rw [run_ended h hr]

/-- A request that ends the transaction with success. -/
theorem run_ends (hr : r.refusal? = some text) (hok : ((r.run c).exec (j, s)).1 = .ok ()) :
    ((r.run c).exec (j, s)).2.1.ensureActive = .error (.invalid text) := by
  cases r with
  | commit =>
    cases hr
    change (c.commit.exec (j, s)).1 = .ok () at hok
    change (c.commit.exec (j, s)).2.1.ensureActive = _
    obtain ⟨f, s', h⟩ | ⟨-, s', h⟩ := commit_cases c j s
    · rw [h] at hok
      cases hok
    · rw [h]
      rfl
  | rollback =>
    cases hr
    change (c.rollback.exec (j, s)).1 = .ok () at hok
    change (c.rollback.exec (j, s)).2.1.ensureActive = _
    obtain ⟨f, he, -⟩ | ⟨he, -⟩ := ensureActive_cases j
    · rw [rollback_ended he] at hok
      cases hok
    · unfold Joint.ensureActive
      rw [rollback_active he]
  | _ => cases hr

end Checking

/-! ## Transactions that have ended -/

/-- The joint transaction has ended, and refuses what needs an active one for a reason. -/
structure HasEnded (t : Nat) (f : Failure) (s : Checked σ S T L) : Prop where
  begun : t < s.begun
  refuses : ∃ j, s.joints.get? t = some j ∧ j.ensureActive = .error f

section

variable [Timed σ] [Metered σ] {c : Checking σ S T L} {s : Checked σ S T L} {t : Nat} {f : Failure}

open Checking

/-- No call takes back the end of a transaction. -/
theorem keeps_ended (h : HasEnded t f s) (call : LayerCall σ S T L) : HasEnded t f (call.made c s).after := by
  obtain ⟨j, hj, hactive⟩ := h.refuses
  cases effect_layer (s := s) (allows_all c) call (fun _ _ _ _ => trivial) with
  | passed hjoints hbegun =>
    obtain ⟨j', hj', hsame⟩ := undated_eq (hjoints t) hj
    have hstate : j'.undated.state = j.undated.state := congrArg Joint.state hsame
    have hrefuses : j'.ensureActive = j.ensureActive := ensureActive_congr hstate
    exact ⟨hbegun ▸ h.begun, j', hj', hrefuses.trans hactive⟩
  | begun hexec hjoints hbegun =>
    have hother : t ≠ s.begun := Nat.ne_of_lt h.begun
    refine ⟨?_, j, ?_, hactive⟩
    · rw [hbegun]
      exact Nat.lt_succ_of_lt h.begun
    · rw [hjoints]
      exact (SortedMap.get?_put_of_ne hother ..).trans hj
  | @served u r k hcall hk houtcome hafter =>
    rw [hafter]
    refine ⟨h.begun, ?_⟩
    by_cases hu : t = u
    · subst hu
      obtain rfl := Option.some.inj (hj.symm.trans hk)
      refine ⟨_, SortedMap.get?_put_self .., ?_⟩
      rw [ensureActive_congr (state_ended hactive r), hactive]
    · exact ⟨j, (SortedMap.get?_put_of_ne hu ..).trans hj, hactive⟩

/-- A request that has ended a transaction with success. -/
theorem hasEnded_of_endsWell (hcounted : s.Counted)
    {call : LayerCall σ S T L} {text : String} (h : (call.made c s).EndsWell t text) :
    HasEnded t (.invalid text) (call.made c s).after := by
  obtain ⟨r, hcall, hr, hok⟩ := h
  obtain rfl : call = .given (.joint t) r := hcall
  change ((r.through c (.joint t)).exec s).1 = .ok () at hok
  change HasEnded t _ ((r.through c (.joint t)).exec s).2
  cases hj : s.joints.get? t with
  | none =>
    have hrun : (r.through c (.joint t)).exec s = (.error Checked.notJoint, s) := by
      cases r with
      | commit | rollback => exact exec_inJoint_none hj
      | _ => cases hr
    rw [hrun] at hok
    cases hok
  | some j =>
    rw [given_joint hj] at hok ⊢
    exact ⟨hcounted t j hj, _, SortedMap.get?_put_self .., run_ends hr hok⟩

/-- A request that needs an active transaction. -/
theorem made_refused (h : HasEnded t f s) {r : JointRequest σ S L} (hr : r.needsActive = true) :
    ((LayerCall.given (.joint t) r).made c s).outcome = .error f ∧
      ((LayerCall.given (.joint t) r).made c s).after = s := by
  obtain ⟨j, hj, hactive⟩ := h.refuses
  have hexec : (r.through c (.joint t)).exec s = (.error f, s) := by
    rw [given_joint hj, run_ended hactive hr]
    dsimp only
    rw [SortedMap.put_self hj]
  exact ⟨congrArg Prod.fst hexec, congrArg Prod.snd hexec⟩

/-- A transaction that a request has ended with success has ended whenever a later call is made. -/
theorem hasEnded_before {calls : List (LayerCall σ S T L)} {base : σ}
    {past between rest : List (MadeLayerCall σ S T L)} {e m : MadeLayerCall σ S T L} {text : String}
    (h : layerHistory c calls (.new base) = past ++ e :: (between ++ m :: rest)) (he : e.EndsWell t text) :
    HasEnded t (.invalid text) m.before ∧ m = m.call.made c m.before := by
  have hnew : (Checked.new base : Checked σ S T L).Counted := by
    intro u j hu
    cases hu
  obtain ⟨hcounted, -, hmade, later, -, hrest⟩ :=
    kept_before (I := Checked.Counted) (fun call _ s hs => keeps_counted hs call) hnew h
  have hended : HasEnded t (.invalid text) e.after := by
    rw [hmade] at he ⊢
    exact hasEnded_of_endsWell hcounted he
  obtain ⟨hm, -, hmade', -⟩ := kept_before (I := HasEnded t (.invalid text))
    (fun call _ s hs => keeps_ended hs call) hended hrest.symm
  exact ⟨hm, hmade'⟩

end

/-- A read in memory finds what is stored, whether the transaction has ended or not. -/
theorem LocalSetup.read_exec (w : LocalSetup) {s : LocalLayers} {t : Nat}
    {j : Joint StoreHandle TxHandle String} (hj : s.joints.get? t = some j)
    (store : CheckedStore StoreHandle String) (key : Bytes) (slice : Slice) :
    (w.backend.read store key slice (.joint t)).exec s =
      (.ok ((s.base.memory.table store.store.number).read key slice), s) := by
  have hexec : (w.backend.read store key slice (.joint t)).exec s = _ := exec_inJoint hj
  rw [hexec]
  have hself : s.joints.put t j = s.joints := SortedMap.put_self hj
  change (_, { s with joints := s.joints.put t j }) = _
  rw [hself]
  rfl

/-- Once a joint transaction over memory was committed or rolled back with success, every request that
needs an active transaction fails as invalid and leaves all layers as they are, whatever any transaction
does and whatever happens in between. -/
theorem stays_ended (w : LocalSetup) (base : Local)
    (calls : List (LayerCall Local StoreHandle TxHandle String)) :
    StaysEnded w (layerHistory w.checking calls (.new base)) := by
  constructor
  · intro past e between m rest t text r hsplit hends hcall hr
    obtain ⟨hended, hmade⟩ := hasEnded_before hsplit hends
    rw [hcall] at hmade
    have hrefused := made_refused (c := w.checking) hended hr
    rw [← hmade] at hrefused
    exact hrefused
  · intro past e between m rest t text store key slice hsplit hends hcall
    obtain ⟨hended, hmade⟩ := hasEnded_before hsplit hends
    obtain ⟨j, hj, -⟩ := hended.refuses
    have hread := w.read_exec hj store key slice
    refine ⟨hread, ?_⟩
    have hrun : ((JointRequest.read store key slice).through w.checking (.joint t)).exec m.before =
        (.ok (), m.before) := by
      change ((w.backend.read store key slice (.joint t)) >>= fun _ => pure ()).exec m.before = _
      rw [exec_void, hread]
      rfl
    rw [hcall] at hmade
    rw [hmade]
    exact ⟨congrArg Prod.fst hrun, congrArg Prod.snd hrun⟩

/-! ## A read after a commit -/

namespace LateRead

/-- Memory, and locks that last for a second. -/
def setup : LocalSetup := ⟨Memory.defaultFeatures, .ofMillis 1000, .steady⟩

def rows : CheckedStore StoreHandle String := ⟨"rows", ⟨0, "rows"⟩, "rows" ++ setup.checking.suffix, 0⟩

/-- A transaction stores a column, is committed, and reads the column. -/
def calls : List (LayerCall Local StoreHandle TxHandle String) :=
  [.openStore "rows", .beginTx .none, .given (.joint 0) (.mutate rows [1] ⟨[⟨[1], [7]⟩], []⟩),
    .given (.joint 0) .commit, .given (.joint 0) (.read rows [1] ⟨[1], [2], none⟩)]

def made : List (MadeLayerCall Local StoreHandle TxHandle String) :=
  layerHistory setup.checking calls (.new .new)

end LateRead

/-- The read succeeds: not every request to a transaction that has ended is invalid. -/
theorem read_after_commit : ¬ ∀ past e between m rest t text r,
    LateRead.made = past ++ e :: (between ++ m :: rest) → e.EndsWell t text → m.call = .given (.joint t) r →
      (∀ change, r ≠ .meanwhile change) → m.outcome = .error (.invalid text) := by
  intro hall
  have hends : (LateRead.made[3]).EndsWell 0 "transaction already committed" := ⟨.commit, rfl, rfl, rfl⟩
  have hread := hall [LateRead.made[0], LateRead.made[1], LateRead.made[2]] LateRead.made[3] []
    LateRead.made[4] [] 0 _ _ rfl hends rfl (fun _ => nofun)
  have hok : (LateRead.made[4]).outcome = .ok () := rfl
  rw [hok] at hread
  cases hread

end RowGraph
