import RowGraph.Proofs.Endings
import RowGraph.Proofs.JointRuns

/-!
# Calls of a checking backend

All that can be asked of the backend that checks expected values, over any inner backend and any lockers:
stores are opened, transactions are begun, and requests are given to them.  `layerHistory` is what becomes
of calls made one after another, and whatever every call keeps holds throughout (`kept_before`).  A call
either passes all joint transactions by, or begins one, or is served in one (`effect_layer`).
-/

namespace RowGraph

variable {σ S T L α : Type}

/-! ## Calls -/

/-- A call of a checking backend. -/
inductive LayerCall (σ S T L : Type) where
  | openStore (name : String)
  | beginTx (o : TxOptions)
  /-- The commit time of a transaction is set. -/
  | stamp (tx : JointHandle T) (micros : Nat)
  | close
  /-- A request is given to a transaction. -/
  | given (tx : JointHandle T) (request : JointRequest σ S L)

/-- A call that was made, with the states before and after it. -/
structure MadeLayerCall (σ S T L : Type) where
  call : LayerCall σ S T L
  outcome : Outcome Unit
  before : Checked σ S T L
  after : Checked σ S T L

section

variable [Timed σ] [Metered σ]

/-- Serves a request in the transaction with a handle. -/
def JointRequest.through (c : Checking σ S T L) (tx : JointHandle T) :
    JointRequest σ S L → Act (Checked σ S T L) Unit
  | meanwhile change => Checked.below (Act.update change)
  | read store key slice => do let _ ← (Checked.backend c).read store key slice tx
  | prepare => do let _ ← Checked.inJoint c.prepare tx
  | lock store key column expected => (Checked.backend c).lock store key column expected tx
  | mutate store key mutation => (Checked.backend c).mutate store key mutation tx
  | mutateMany batch => (Checked.backend c).mutateMany batch tx
  | commit => (Checked.backend c).commit tx
  | rollback => (Checked.backend c).rollback tx

namespace LayerCall

/-- Makes a call. -/
def run (c : Checking σ S T L) : LayerCall σ S T L → Act (Checked σ S T L) Unit
  | openStore name => do let _ ← (Checked.backend c).openStore name
  | beginTx o => do let _ ← (Checked.backend c).beginTx o
  | stamp tx micros => Act.update ((Checked.backend c).stamp tx micros)
  | close => (Checked.backend c).close
  | given tx r => r.through c tx

/-- Makes a call. -/
def made (c : Checking σ S T L) (s : Checked σ S T L) (call : LayerCall σ S T L) : MadeLayerCall σ S T L :=
  ⟨call, ((call.run c).exec s).1, s, ((call.run c).exec s).2⟩

end LayerCall

/-- The calls made one after another. -/
def layerHistory (c : Checking σ S T L) :
    List (LayerCall σ S T L) → Checked σ S T L → List (MadeLayerCall σ S T L)
  | [], _ => []
  | call :: calls, s => call.made c s :: layerHistory c calls (call.made c s).after

/-- Whatever holds at first and is kept by every call holds before each of them. -/
theorem kept_before {c : Checking σ S T L} {I : Checked σ S T L → Prop} {calls : List (LayerCall σ S T L)}
    (hstep : ∀ call ∈ calls, ∀ s, I s → I (call.made c s).after) {s : Checked σ S T L} (hs : I s)
    {past rest : List (MadeLayerCall σ S T L)} {m : MadeLayerCall σ S T L}
    (h : layerHistory c calls s = past ++ m :: rest) :
    I m.before ∧ m.call ∈ calls ∧ m = m.call.made c m.before ∧
      ∃ later, (∀ call ∈ later, call ∈ calls) ∧ rest = layerHistory c later m.after := by
  induction calls generalizing past s with
  | nil => simp [layerHistory] at h
  | cons call calls ih =>
    rw [List.forall_mem_cons] at hstep
    cases past with
    | nil =>
      obtain ⟨rfl, rfl⟩ := List.cons_eq_cons.mp h
      exact ⟨hs, List.mem_cons_self, rfl, calls, fun _ => List.mem_cons_of_mem _, rfl⟩
    | cons x past =>
      obtain ⟨rfl, htail⟩ := List.cons_eq_cons.mp h
      obtain ⟨hm, hcall, hmade, later, hlater, hrest⟩ := ih hstep.2 (hstep.1 s hs) htail
      exact ⟨hm, List.mem_cons_of_mem _ hcall, hmade, later,
        fun call h => List.mem_cons_of_mem _ (hlater call h), hrest⟩

/-! ## Requests -/

variable {c : Checking σ S T L} {s : Checked σ S T L} {t : Nat} {j : Joint S T L}

/-- A request given to a joint transaction is served in it. -/
theorem given_joint (hj : s.joints.get? t = some j) (r : JointRequest σ S L) :
    (r.through c (.joint t)).exec s = (((r.run c).exec (j, s.base)).1, { s with
      base := ((r.run c).exec (j, s.base)).2.2
      joints := s.joints.put t ((r.run c).exec (j, s.base)).2.1 }) := by
  cases r with
  | meanwhile change =>
    have hself : s.joints.put t j = s.joints := SortedMap.put_self hj
    change (Except.ok (), ({ s with base := change s.base } : Checked σ S T L)) =
      (.ok (), { s with base := change s.base, joints := s.joints.put t j })
    rw [hself]
  | read store key slice => exact (exec_inJoint_void _ t s).trans (exec_inJoint hj)
  | prepare => exact (exec_inJoint_void _ t s).trans (exec_inJoint hj)
  | lock | mutate | mutateMany | commit | rollback => exact exec_inJoint hj

end

/-! ## What a call comes down to -/

/-- A relation between the states around every call of the layers below, but for the taking and the
releasing of locks. -/
structure Checking.Allows [Timed σ] [Metered σ] (c : Checking σ S T L) (P : σ → σ → Prop) : Prop where
  refl : ∀ s, P s s
  trans : ∀ s s' s'', P s s' → P s' s'' → P s s''
  openStore : ∀ name s, P s ((c.inner.openStore name).exec s).2
  locker : ∀ name s, P s ((c.locks.locker name).exec s).2
  check : ∀ locker owner s, P s ((c.locks.check locker owner).exec s).2
  read : ∀ store key slice tx s, P s ((c.inner.read store key slice tx).exec s).2
  mutate : ∀ store key m tx s, P s ((c.inner.mutate store key m tx).exec s).2
  mutateMany : ∀ batch tx s, P s ((c.inner.mutateMany batch tx).exec s).2
  beginTx : ∀ o s, P s ((c.inner.beginTx o).exec s).2
  stamp : ∀ tx micros s, P s (c.inner.stamp tx micros s)
  commit : ∀ tx s, P s ((c.inner.commit tx).exec s).2
  rollback : ∀ tx s, P s ((c.inner.rollback tx).exec s).2
  close : ∀ s, P s (c.inner.close.exec s).2
  sleep : ∀ d s, P s (sleepFor d s)
  count : ∀ f s, P s (count f s)

/-- The transaction but for its options. -/
def Joint.undated (j : Joint S T L) : Joint S T L := { j with options := .none }

/-- Every joint transaction has been counted. -/
def Checked.Counted (s : Checked σ S T L) : Prop := ∀ u j, s.joints.get? u = some j → u < s.begun

/-- Every store that is open was open before or has just been opened. -/
def OpensStores (c : Checking σ S T L) (s s' : Checked σ S T L) : Prop :=
  ∀ name store, s'.stores.get? name = some store → s.stores.get? name = some store ∨
    ∃ serial b b', (c.opened name serial).exec b = (.ok store, b')

/-- What a call comes down to, when the calls of the layers below are allowed by a relation. -/
inductive LayerEffect [Timed σ] [Metered σ] (c : Checking σ S T L) (P : σ → σ → Prop)
    (m : MadeLayerCall σ S T L) : Prop where
  /-- No joint transaction has a part in it, but that options may change. -/
  | passed (hjoints : ∀ t, (m.after.joints.get? t).map Joint.undated = (m.before.joints.get? t).map Joint.undated)
    (hbegun : m.after.begun = m.before.begun) (hbase : P m.before.base m.after.base)
    (hstores : OpensStores c m.before m.after)
  /-- A joint transaction is begun. -/
  | begun {o : TxOptions} {j : Joint S T L} (hexec : (c.begun o).exec m.before.base = (.ok j, m.after.base))
    (hjoints : m.after.joints = m.before.joints.put m.before.begun j) (hbegun : m.after.begun = m.before.begun + 1)
    (hstores : m.after.stores = m.before.stores)
  /-- A request is served in a joint transaction. -/
  | served {t : Nat} {r : JointRequest σ S L} {j : Joint S T L} (hcall : m.call = .given (.joint t) r)
    (hj : m.before.joints.get? t = some j) (houtcome : m.outcome = ((r.run c).exec (j, m.before.base)).1)
    (hafter : m.after = { m.before with
      base := ((r.run c).exec (j, m.before.base)).2.2
      joints := m.before.joints.put t ((r.run c).exec (j, m.before.base)).2.1 })

namespace Checking.Allows

variable [Timed σ] [Metered σ] {c : Checking σ S T L} {P : σ → σ → Prop} {s : Checked σ S T L} {s₀ : σ}

/-- An act whose calls are allowed, counted from any state before. -/
theorem ensures (h : c.Allows P) {act : Act σ α} (hact : ∀ s, P s (act.exec s).2) :
    act.Ensures (P s₀) fun _ => True :=
  fun s hs => ⟨h.trans _ _ _ hs (hact s), fun _ _ => trivial⟩

theorem ensures_begun (h : c.Allows P) (o : TxOptions) : (c.begun o).Ensures (P s₀) fun _ => True := by
  unfold begun
  refine (h.ensures (h.beginTx _)).bind fun inconsistent _ => ?_
  refine (h.ensures (h.beginTx _)).attempt.bind fun outcome _ => ?_
  cases outcome with
  | ok consistent => exact Act.ensures_pure trivial
  | error f => exact (h.ensures (h.rollback _)).attempt.bind fun _ _ => Act.ensures_throw f

theorem ensures_opened (h : c.Allows P) (name : String) (serial : Nat) :
    (c.opened name serial).Ensures (P s₀) fun _ => True := by
  unfold opened
  refine (h.ensures (h.openStore _)).bind fun store _ => ?_
  exact (h.ensures (h.locker _)).bind fun locker _ => Act.ensures_pure trivial

end Checking.Allows

section

variable [Timed σ] [Metered σ] {c : Checking σ S T L} {P : σ → σ → Prop} {m : MadeLayerCall σ S T L}
  {s : Checked σ S T L}

theorem LayerEffect.of_base {b : σ} (hafter : m.after = { m.before with base := b })
    (hbase : P m.before.base b) : LayerEffect c P m := by
  refine .passed (fun t => ?_) ?_ ?_ fun name store hstore => ?_
  · rw [hafter]
  · rw [hafter]
  · rw [hafter]
    exact hbase
  · rw [hafter] at hstore
    exact .inl hstore

/-- A store is found open, or it is opened in the layers below. -/
theorem effect_openStore (h : c.Allows P) (name : String) :
    LayerEffect c P ((LayerCall.openStore name).made c s) := by
  have hopened : P s.base ((c.opened name s.opened).exec s.base).2 :=
    (h.ensures_opened name s.opened s.base (h.refl _)).1
  have hrun : (((LayerCall.openStore name).run c).exec s).2 = ((Checked.openStore c name).exec s).2 := by
    change ((Checked.openStore c name >>= fun _ => pure ()).exec s).2 = _
    rw [exec_void]
  have hafter : ((LayerCall.openStore name).made c s).after = ((Checked.openStore c name).exec s).2 := hrun
  have hexec : ((Checked.openStore c name).exec s).2.joints = s.joints ∧
      ((Checked.openStore c name).exec s).2.begun = s.begun ∧
      P s.base ((Checked.openStore c name).exec s).2.base ∧
      OpensStores c s ((Checked.openStore c name).exec s).2 := by
    unfold Checked.openStore
    rw [Act.exec_bind_ok (Act.exec_asks ..)]
    cases hstore : s.stores.get? name with
    | some store => exact ⟨rfl, rfl, h.refl _, fun _ _ => .inl⟩
    | none =>
      dsimp only
      rw [Act.exec_bind_ok (Act.exec_asks ..), Act.exec_bind]
      unfold Checked.below
      rw [Act.exec_on]
      cases he : (c.opened name s.opened).exec s.base with
      | mk o b =>
        rw [he] at hopened
        cases o with
        | error f => exact ⟨rfl, rfl, hopened, fun _ _ => .inl⟩
        | ok store =>
          refine ⟨rfl, rfl, hopened, fun other found hfound => ?_⟩
          obtain ⟨rfl, rfl⟩ | hbefore := SortedMap.get?_put_cases hfound
          · exact .inr ⟨_, _, _, he⟩
          · exact .inl hbefore
  obtain ⟨hjoints, hbegun, hbase, hstores⟩ := hexec
  rw [← hafter] at hjoints hbegun hbase hstores
  exact .passed (fun t => by rw [hjoints]; rfl) hbegun hbase hstores

/-- A transaction is begun, or the layers below refuse to begin its parts. -/
theorem effect_beginTx (h : c.Allows P) (o : TxOptions) :
    LayerEffect c P ((LayerCall.beginTx o).made c s) := by
  have hbegun : P s.base ((c.begun o).exec s.base).2 := (h.ensures_begun o s.base (h.refl _)).1
  have hrun : (((LayerCall.beginTx o).run c).exec s).2 = ((Checked.beginTx c o).exec s).2 := by
    change ((Checked.beginTx c o >>= fun _ => pure ()).exec s).2 = _
    rw [exec_void]
  have hafter : ((LayerCall.beginTx o).made c s).after = ((Checked.beginTx c o).exec s).2 := hrun
  unfold Checked.beginTx at hafter
  rw [Act.exec_bind] at hafter
  unfold Checked.below at hafter
  rw [Act.exec_on] at hafter
  cases he : (c.begun o).exec s.base with
  | mk outcome b =>
    rw [he] at hafter hbegun
    cases outcome with
    | error f => exact .of_base hafter hbegun
    | ok j =>
      refine .begun (o := o) (j := j) ?_ (by rw [hafter]; rfl) (by rw [hafter]; rfl) (by rw [hafter]; rfl)
      rw [hafter]
      exact he

theorem effect_stamp (h : c.Allows P) (tx : JointHandle T) (micros : Nat) :
    LayerEffect c P ((LayerCall.stamp tx micros).made c s) := by
  cases tx with
  | foreign x => exact .of_base rfl (h.stamp ..)
  | joint t =>
    refine .passed (fun u => ?_) rfl (h.refl _) fun _ _ => .inl
    change ((s.joints.alter t fun j? => j?.map fun j => { j with options := j.options.stamped micros }).get? u).map
      Joint.undated = (s.joints.get? u).map Joint.undated
    unfold SortedMap.alter
    cases hj : s.joints.get? t with
    | none =>
      dsimp only [Option.map_none]
      rw [SortedMap.get?_erase]
      split
      · rename_i hu
        rw [hu, hj]
      · rfl
    | some j =>
      dsimp only [Option.map_some]
      rw [SortedMap.get?_put]
      split
      · rename_i hu
        rw [hu, hj]
        rfl
      · rfl

/-- A request given to a transaction that does not exist is refused. -/
theorem effect_missing (h : c.Allows P) {t : Nat} (hj : s.joints.get? t = none) {r : JointRequest σ S L}
    (hothers : ∀ change, r = .meanwhile change → ∀ s, P s (change s)) :
    LayerEffect c P ((LayerCall.given (.joint t) r).made c s) := by
  have hrefused {act : Act (Joint S T L × σ) Unit} (hrun : (r.through c (.joint t)).exec s =
      (Checked.inJoint act (.joint t)).exec s) :
      ((LayerCall.given (.joint t) r).made c s).after = s := by
    change ((r.through c (.joint t)).exec s).2 = s
    rw [hrun, exec_inJoint_none hj]
  have hpassed (hafter : ((LayerCall.given (.joint t) r).made c s).after = s) :
      LayerEffect c P ((LayerCall.given (.joint t) r).made c s) :=
    .of_base hafter (h.refl s.base)
  cases r with
  | meanwhile change => exact .of_base rfl (hothers _ rfl _)
  | read store key slice => exact hpassed (hrefused (exec_inJoint_void _ t s))
  | prepare => exact hpassed (hrefused (exec_inJoint_void _ t s))
  | lock | mutate | mutateMany | commit | rollback => exact hpassed (hrefused rfl)

/-- Every call has one of the effects, if nothing else happens to the layers below than what is allowed. -/
theorem effect_layer (h : c.Allows P) (call : LayerCall σ S T L)
    (hothers : ∀ tx change, call = .given tx (.meanwhile change) → ∀ s, P s (change s)) :
    LayerEffect c P (call.made c s) := by
  cases call with
  | openStore name => exact effect_openStore h name
  | beginTx o => exact effect_beginTx h o
  | stamp tx micros => exact effect_stamp h tx micros
  | close => exact .passed (fun _ => rfl) rfl (h.close _) fun _ _ hfound => by cases hfound
  | given tx r =>
    cases tx with
    | foreign x =>
      cases r with
      | meanwhile change => exact .of_base rfl (hothers _ _ rfl _)
      | commit => exact .of_base rfl (h.commit ..)
      | rollback => exact .of_base rfl (h.rollback ..)
      | _ => exact .of_base rfl (h.refl _)
    | joint t =>
      cases hj : s.joints.get? t with
      | none => exact effect_missing h hj fun change hr => hothers _ change (by rw [hr])
      | some j =>
        have hexec := given_joint (c := c) hj r
        exact .served rfl hj (congrArg Prod.fst hexec) (congrArg Prod.snd hexec)

/-- Anything may happen in the layers below. -/
theorem allows_all (c : Checking σ S T L) : c.Allows fun _ _ => True := by
  constructor <;> intros <;> trivial

theorem undated_eq {x y : Option (Joint S T L)} (h : x.map Joint.undated = y.map Joint.undated)
    {j : Joint S T L} (hj : y = some j) : ∃ j', x = some j' ∧ j'.undated = j.undated := by
  subst hj
  exact Option.map_eq_some_iff.mp h

/-- Every transaction is counted when it is begun. -/
theorem keeps_counted (h : s.Counted) (call : LayerCall σ S T L) : (call.made c s).after.Counted := by
  intro u j hu
  cases effect_layer (s := s) (allows_all c) call (fun _ _ _ _ => trivial) with
  | passed hjoints hbegun =>
    obtain ⟨j', hj', -⟩ := undated_eq (hjoints u).symm hu
    rw [hbegun]
    exact h u j' hj'
  | begun hexec hjoints hbegun =>
    rw [hjoints] at hu
    rw [hbegun]
    obtain ⟨rfl, -⟩ | hbefore := SortedMap.get?_put_cases hu
    · exact Nat.lt_succ_self _
    · exact Nat.lt_succ_of_lt (h u j hbefore)
  | @served t r k hcall hk houtcome hafter =>
    rw [hafter] at hu ⊢
    obtain ⟨rfl, -⟩ | hbefore := SortedMap.get?_put_cases hu
    · exact h u k hk
    · exact h u j hbefore

end

end RowGraph
