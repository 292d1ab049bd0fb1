import RowGraph.Proofs.JointTurns

/-!
# Runs of the checking layer

Whole calls, made one after another by any number of joint transactions.  `history` is what was made of
them, each call with its outcome and the states around it.  Every call is a `Passage`: nothing that matters
changes, or a transaction is begun, or one transaction has its turn (`passage`).
-/

namespace RowGraph

/-- A whole call.  Stores go by name and transactions by number. -/
inductive JointCall where
  /-- Time passes. -/
  | advance (d : Nanos)
  | openStore (name : String)
  | beginTx (o : TxOptions)
  | read (store : String) (tx : Nat) (key : Bytes) (slice : Slice)
  /-- Checks everything as before a mutation. -/
  | prepare (tx : Nat)
  | lock (store : String) (tx : Nat) (key column : Bytes) (expected : Option Bytes)
  | mutate (store : String) (tx : Nat) (key : Bytes) (mutation : Mutation)
  | mutateMany (tx : Nat) (batch : Batch)
  | commit (tx : Nat)
  | rollback (tx : Nat)

/-- The checking layer over memory as a backend. -/
def LocalSetup.backend (w : LocalSetup) :
    Backend LocalLayers (CheckedStore StoreHandle String) (JointHandle TxHandle) :=
  Checked.backend w.checking

namespace JointCall

/-- Makes a call. -/
def run (w : LocalSetup) : JointCall → Act LocalLayers Unit
  | advance d => Act.update (passTime d)
  | openStore name => do let _ ← w.backend.openStore name
  | beginTx o => do let _ ← w.backend.beginTx o
  | read store tx key slice => do
    let opened ← w.backend.openStore store
    let _ ← w.backend.read opened key slice (.joint tx)
  | prepare tx => do let _ ← Checked.inJoint w.checking.prepare (.joint tx)
  | lock store tx key column expected => do
    let opened ← w.backend.openStore store
    w.backend.lock opened key column expected (.joint tx)
  | mutate store tx key mutation => do
    let opened ← w.backend.openStore store
    w.backend.mutate opened key mutation (.joint tx)
  | mutateMany tx batch => w.backend.mutateMany batch (.joint tx)
  | commit tx => w.backend.commit (.joint tx)
  | rollback tx => w.backend.rollback (.joint tx)

/-- The transaction that makes a call. -/
def tx? : JointCall → Option Nat
  | advance _ | openStore _ | beginTx _ => none
  | read _ tx _ _ | prepare tx | lock _ tx _ _ _ | mutate _ tx _ _ | mutateMany tx _ | commit tx
  | rollback tx => some tx

/-- What a call has done when it succeeds.  Memory refuses no mutation, so a call to mutate succeeds
exactly if the mutation is forwarded. -/
def deed : JointCall → Deed
  | lock store _ key column expected => .locked ⟨store, key, column⟩ expected
  | mutate store _ key mutation => .wrote (Memory.mutated store key mutation)
  | mutateMany _ batch => .wrote (Memory.mutatedMany batch)
  | commit _ | rollback _ => .ended
  | _ => .nothing

end JointCall

/-- What is left of a deed when the call has an outcome. -/
def Deed.upon {α : Type} (d : Deed) : Outcome α → Deed
  | .ok _ => d
  | .error _ => .nothing

/-- A call that was made, with the states before and after it. -/
structure MadeCall where
  call : JointCall
  outcome : Outcome Unit
  before : LocalLayers
  after : LocalLayers

/-- What a call has done in a transaction. -/
def MadeCall.deed (m : MadeCall) (t : Nat) : Deed :=
  if m.call.tx? = some t then m.call.deed.upon m.outcome else .nothing

/-- Makes a call. -/
def JointCall.made (w : LocalSetup) (s : LocalLayers) (call : JointCall) : MadeCall :=
  ⟨call, ((call.run w).exec s).1, s, ((call.run w).exec s).2⟩

/-- The calls made one after another. -/
def history (w : LocalSetup) : List JointCall → LocalLayers → List MadeCall
  | [], _ => []
  | call :: calls, s => call.made w s :: history w calls (call.made w s).after

/-- Transactions and stored columns are the same. -/
structure Idle (s s' : LocalLayers) : Prop where
  joints : s'.joints = s.joints
  holds : ∀ c, s'.base.memory.holds c = s.base.memory.holds c

/-- What a call comes down to. -/
inductive Passage (w : LocalSetup) (s : LocalLayers) (deed : Nat → Deed) : LocalLayers → Prop
  | idle {s' : LocalLayers} (hidle : Idle s s') (hsound : w.Sound s') (hdeed : ∀ t, deed t = .nothing) :
    Passage w s deed s'
  | begun {s' : LocalLayers} {j : Joint StoreHandle TxHandle String}
    (hjoints : s'.joints = s.joints.put s.begun j)
    (hholds : ∀ c, s'.base.memory.holds c = s.base.memory.holds c) (hactive : j.state = .active)
    (hexpected : j.expected = .empty) (hsound : w.Sound s') (hdeed : ∀ t, deed t = .nothing) :
    Passage w s deed s'
  | turn {s₁ : LocalLayers} {t : Nat} {j j' : Joint StoreHandle TxHandle String} {b' : Local}
    (hidle : Idle s s₁) (hsound : w.Sound s₁) (hj : s₁.joints.get? t = some j)
    (hturn : w.Turn (deed t) j s₁.base j' b') (hdeed : ∀ u, u ≠ t → deed u = .nothing) :
    Passage w s deed { s₁ with base := b', joints := s₁.joints.put t j' }

variable {w : LocalSetup} {s s₁ : LocalLayers} {t : Nat} {j : Joint StoreHandle TxHandle String}

theorem idle_refl (s : LocalLayers) : Idle s s := ⟨rfl, fun _ => rfl⟩

/-! ## Opening stores and beginning transactions -/

theorem sound_opening (h : w.Sound s) {name : String} (store : CheckedStore StoreHandle String)
    (hname : store.name = name) (hlocker : store.locker = name ++ w.checking.suffix)
    (hstore : store.store = (s.base.memory.store name).1) :
    w.Sound { s with
      base := { s.base with memory := (s.base.memory.store name).2 }
      stores := s.stores.put name store
      opened := s.opened + 1 } where
  memory := (Memory.writes_store h.memory name).sound
  stores other found hs := by
    rw [SortedMap.get?_put] at hs
    split at hs
    · rename_i hother
      cases hs
      rw [hother, hstore]
      exact ⟨hname, hlocker, Memory.get?_stores_store ..⟩
    · obtain ⟨h₁, h₂, hn⟩ := h.stores other found hs
      exact ⟨h₁, h₂, (Memory.writes_store h.memory name).stores _ _ hn⟩
  begun := h.begun
  fits t j hj := by
    have hw := Memory.writes_store h.memory name
    have hrecord (t : TxHandle) : (s.base.memory.store name).2.record t = s.base.memory.record t := by
      unfold Memory.record
      rw [hw.transactions]
    have hfits := h.fits t j hj
    exact hfits.update rfl rfl (fun other st locker hs => hw.stores _ _ (hfits.stores other st locker hs))
      (Nat.le_of_eq hw.begun.symm) fun ha => ⟨ha, hrecord _, hrecord _⟩
  apart := h.apart
  held := h.held

/-- Opening a store finds it under its name and changes nothing that matters. -/
theorem openStore_exec (h : w.Sound s) (name : String) :
    ∃ store s₁, (w.backend.openStore name).exec s = (.ok store, s₁) ∧ Idle s s₁ ∧ w.Sound s₁ ∧
      s₁.stores.get? name = some store ∧ s₁.base.lockers = s.base.lockers ∧
      now s₁.base = now s.base := by
  change ∃ store s₁, (Checked.openStore w.checking name).exec s = _ ∧ _
  unfold Checked.openStore
  rw [Act.exec_bind_ok (Act.exec_asks ..)]
  cases hs : s.stores.get? name with
  | some store => exact ⟨store, s, rfl, idle_refl s, h, hs, rfl, rfl⟩
  | none =>
    let store : CheckedStore StoreHandle String :=
      ⟨name, (s.base.memory.store name).1, name ++ w.checking.suffix, s.opened⟩
    refine ⟨store, _, rfl, ⟨rfl, fun c => ?_⟩, sound_opening h store rfl rfl rfl, ?_, rfl, rfl⟩
    · exact (Memory.writes_store h.memory name).holds c List.not_mem_nil
    · exact (SortedMap.get?_put ..).trans (if_pos rfl)

/-- The memory after a joint transaction has begun its two parts. -/
def begunTwice (m : Memory) (o o' : TxOptions) : Memory := ((m.beginTx o).2.beginTx o').2

theorem record_begunTwice (m : Memory) (o o' : TxOptions) (t : TxHandle) :
    (begunTwice m o o').record t = if t.number = m.begun + 2 then ⟨o', false⟩
      else if t.number = m.begun + 1 then ⟨o, false⟩ else m.record t := by
  unfold begunTwice Memory.beginTx Memory.record
  simp only [SortedMap.get?_put]
  split
  · rfl
  · split <;> rfl

theorem sound_begun (h : w.Sound s) (o o' : TxOptions) :
    w.Sound { s with
      base := { s.base with memory := begunTwice s.base.memory o o' }
      joints := s.joints.put s.begun (.new o ⟨s.base.memory.begun + 1⟩ ⟨s.base.memory.begun + 2⟩)
      begun := s.begun + 1 } where
  memory := ⟨h.memory.opened, h.memory.apart, h.memory.blank⟩
  stores := h.stores
  begun t j hj := by
    rw [SortedMap.get?_put] at hj
    split at hj
    · rename_i ht
      exact ht ▸ Nat.lt_succ_self _
    · exact Nat.lt_succ_of_lt (h.begun t j hj)
  fits t j hj := by
    rw [SortedMap.get?_put] at hj
    split at hj
    · cases hj
      refine ⟨fun name store locker hs => ?_, Nat.lt_succ_self _, Nat.le_refl _, fun _ => ⟨?_, ?_, ?_⟩⟩
      · cases hs
      · simp [record_begunTwice, Joint.new]
      · simp [record_begunTwice, Joint.new]
      · simp [Joint.new]
    · have hfits := h.fits t j hj
      have hrecord (t : TxHandle) (ht : t.number ≤ s.base.memory.begun) :
          (begunTwice s.base.memory o o').record t = s.base.memory.record t := by
        rw [record_begunTwice, if_neg (by omega), if_neg (by omega)]
      refine hfits.update rfl rfl hfits.stores ?_ fun ha => ⟨ha, hrecord _ ?_, hrecord _ hfits.begun⟩
      · exact Nat.le_add_right s.base.memory.begun 2
      · exact Nat.le_trans (Nat.le_of_lt hfits.apart) hfits.begun
  apart t u j k hj hk htu := by
    rw [SortedMap.get?_put] at hj hk
    split at hj <;> split at hk
    · omega
    · have := h.begun u k hk
      omega
    · cases hk
      have := (h.fits t j hj).begun
      exact Nat.lt_succ_of_le this
    · exact h.apart t u j k hj hk htu
  held t j c hj hactive hc := by
    rw [SortedMap.get?_put] at hj
    split at hj
    · cases hj
      cases hc
    · exact h.held t j c hj hactive hc

theorem beginTx_exec (h : w.Sound s) (o : TxOptions) :
    ∃ j s', ((w.backend.beginTx o).exec s).2 = s' ∧ s'.joints = s.joints.put s.begun j ∧
      (∀ c, s'.base.memory.holds c = s.base.memory.holds c) ∧ j.state = .active ∧
      j.expected = .empty ∧ w.Sound s' :=
  ⟨_, _, rfl, rfl, fun _ => rfl, rfl, rfl, sound_begun h o (o.mergedWith w.features.required)⟩

/-! ## Calls of a transaction -/

theorem exec_inJoint {σ S T L α : Type} {act : Act (Joint S T L × σ) α} {s : Checked σ S T L} {t : Nat}
    {j : Joint S T L} (hj : s.joints.get? t = some j) :
    (Checked.inJoint act (.joint t)).exec s = ((act.exec (j, s.base)).1, { s with
      base := (act.exec (j, s.base)).2.2
      joints := s.joints.put t (act.exec (j, s.base)).2.1 }) := by
  simp only [Checked.inJoint, Act.exec_of, hj]

theorem exec_inJoint_none {σ S T L α : Type} {act : Act (Joint S T L × σ) α} {s : Checked σ S T L} {t : Nat}
    (hj : s.joints.get? t = none) :
    (Checked.inJoint act (.joint t)).exec s = (.error Checked.notJoint, s) := by
  simp only [Checked.inJoint, Act.exec_of, hj]

theorem exec_void {σ α : Type} (act : Act σ α) (s : σ) :
    (act >>= fun _ => pure ()).exec s = ((act.exec s).1.map fun _ => (), (act.exec s).2) := by
  rw [Act.exec_bind]
  cases act.exec s with
  | mk o s' => cases o <;> rfl

/-- A call whose act has a turn in every transaction is a passage. -/
theorem passage_of_run {call : JointCall} {act : Act (Joint StoreHandle TxHandle String × Local) Unit}
    (htx : call.tx? = some t) (hidle : Idle s s₁) (hsound : w.Sound s₁)
    (hrun : (call.run w).exec s = (Checked.inJoint act (.joint t)).exec s₁)
    (hact : ∀ j, s₁.joints.get? t = some j → ∃ o j' b', act.exec (j, s₁.base) = (o, (j', b')) ∧
      w.Turn (call.deed.upon o) j s₁.base j' b') :
    Passage w s (call.made w s).deed (call.made w s).after := by
  have hdeed (u : Nat) : (call.made w s).deed u =
      if u = t then call.deed.upon ((call.run w).exec s).1 else .nothing := by
    unfold MadeCall.deed JointCall.made
    rw [htx]
    by_cases hu : u = t
    · rw [if_pos hu, if_pos (hu ▸ rfl)]
    · rw [if_neg hu, if_neg fun he => hu (Option.some.inj he).symm]
  change Passage w s _ ((call.run w).exec s).2
  rw [hrun] at hdeed ⊢
  cases hj : s₁.joints.get? t with
  | none =>
    rw [exec_inJoint_none hj] at hdeed ⊢
    refine .idle hidle hsound fun u => ?_
    rw [hdeed]
    split <;> rfl
  | some j =>
    obtain ⟨o, j', b', he, hturn⟩ := hact j hj
    rw [exec_inJoint hj, he] at hdeed ⊢
    refine .turn hidle hsound hj ?_ fun u hu => ?_
    · rw [hdeed, if_pos rfl]
      exact hturn
    · rw [hdeed, if_neg hu]

theorem exec_inJoint_void {σ S T L α : Type} (act : Act (Joint S T L × σ) α) (t : Nat) (s : Checked σ S T L) :
    (Checked.inJoint act (.joint t) >>= fun _ => pure ()).exec s =
      (Checked.inJoint (act >>= fun _ => pure ()) (.joint t)).exec s := by
  rw [exec_void]
  cases hj : s.joints.get? t with
  | none =>
    rw [exec_inJoint_none hj, exec_inJoint_none hj]
    rfl
  | some j => rw [exec_inJoint hj, exec_inJoint hj, exec_void]

theorem turn_failed {b : Local} (h : LocalSetup.Fits b.memory j) (hm : b.memory.Sound) (attempted : Bool) :
    w.Turn .nothing j b { j with lockAttempted := attempted } b := by
  refine LocalSetup.turn_nothing h hm attempted id fun hs hns => ?_
  rw [hs] at hns
  cases hns

/-- Every call is a passage, as long as no lease has ended. -/
theorem passage (h : w.Sound s) (hlast : s.base.lockers.Lasting (now s.base)) (call : JointCall) :
    Passage w s (call.made w s).deed (call.made w s).after := by
  cases call with
  | advance d =>
    exact .idle ⟨rfl, fun _ => rfl⟩ ⟨h.memory, h.stores, h.begun, h.fits, h.apart, h.held⟩ fun _ => rfl
  | openStore name =>
    obtain ⟨store, s₁, he, hidle, hsound, -⟩ := openStore_exec h name
    have hafter : (JointCall.made w s (.openStore name)).after = s₁ := by
      change ((w.backend.openStore name >>= fun _ => pure ()).exec s).2 = s₁
      rw [exec_void, he]
    rw [hafter]
    exact .idle hidle hsound fun _ => rfl
  | beginTx o =>
    obtain ⟨j, s', he, hjoints, hholds, hactive, hexpected, hsound⟩ := beginTx_exec h o
    have hafter : (JointCall.made w s (.beginTx o)).after = s' := by
      change ((w.backend.beginTx o >>= fun _ => pure ()).exec s).2 = s'
      rw [exec_void, he]
    rw [hafter]
    exact .begun hjoints hholds hactive hexpected hsound fun _ => rfl
  | read store t key slice =>
    obtain ⟨opened, s₁, he, hidle, hsound, -⟩ := openStore_exec h store
    have hrun : ((JointCall.read store t key slice).run w).exec s =
        (Checked.inJoint (w.checking.read opened key slice >>= fun _ => pure ()) (.joint t)).exec s₁ :=
      (Act.exec_bind_ok he _).trans (exec_inJoint_void _ t s₁)
    refine passage_of_run (t := t) rfl hidle hsound hrun fun j hj => ?_
    exact ⟨.ok (), j, s₁.base, rfl, turn_failed (hsound.fits t j hj) hsound.memory j.lockAttempted⟩
  | prepare t =>
    have hrun : ((JointCall.prepare t).run w).exec s =
        (Checked.inJoint (w.checking.prepare >>= fun _ => pure ()) (.joint t)).exec s :=
      exec_inJoint_void _ t s
    refine passage_of_run (t := t) rfl (idle_refl s) h hrun fun j hj => ?_
    have hfits := h.fits t j hj
    obtain ⟨f, he⟩ | ⟨he, -, hv⟩ := Checking.prepare_exec (w := w) j s.base
    · refine ⟨.error f, j, s.base, ?_, turn_failed hfits h.memory j.lockAttempted⟩
      rw [exec_void, he]
      rfl
    · refine ⟨.ok (), _, s.base, ?_, LocalSetup.turn_nothing hfits h.memory j.lockAttempted
        (fun _ => rfl) fun _ => hv⟩
      rw [exec_void, he]
      rfl
  | lock store t key column e =>
    obtain ⟨opened, s₁, he, hidle, hsound, hopened, hlockers, hnow⟩ := openStore_exec h store
    obtain ⟨rfl, hlocker, hn⟩ := hsound.stores _ _ hopened
    refine passage_of_run (t := t) rfl hidle hsound (Act.exec_bind_ok he _) fun j hj => ?_
    have hfits := hsound.fits t j hj
    obtain ⟨f, attempted, he⟩ | ⟨lockers, he, hactive, hstarted, hwrite⟩ :=
      Checking.lock_exec (w := w) opened key column e j s₁.base
    · exact ⟨_, _, _, he, turn_failed hfits hsound.memory attempted⟩
    · refine ⟨_, _, _, he,
        LocalSetup.turn_locked hfits hsound.memory hn hlocker e hactive hstarted hwrite ?_⟩
      rw [hlockers, hnow]
      exact hlast
  | mutate store t key m =>
    obtain ⟨opened, s₁, he, hidle, hsound, hopened, -⟩ := openStore_exec h store
    obtain ⟨rfl, -, hn⟩ := hsound.stores _ _ hopened
    refine passage_of_run (t := t) rfl hidle hsound (Act.exec_bind_ok he _) fun j hj => ?_
    have hfits := hsound.fits t j hj
    obtain ⟨f, he⟩ | ⟨he, hactive, hv⟩ := Checking.mutate_exec (w := w) opened key m j s₁.base
    · exact ⟨_, _, _, he, turn_failed hfits hsound.memory j.lockAttempted⟩
    · have hwrites := Memory.writes_mutate hsound.memory hn key m
      exact ⟨_, _, _, he, LocalSetup.turn_wrote hfits hwrites s₁.base.metrics hactive hv⟩
  | mutateMany t batch =>
    refine passage_of_run (t := t) rfl (idle_refl s) h rfl fun j hj => ?_
    have hfits := h.fits t j hj
    obtain ⟨f, he⟩ | ⟨⟨metrics, he⟩, hactive, hv⟩ := Checking.mutateMany_exec (w := w) batch j s.base
    · exact ⟨_, _, _, he, turn_failed hfits h.memory j.lockAttempted⟩
    · have hwrites := Memory.writes_mutateMany h.memory batch
      exact ⟨_, _, _, he, LocalSetup.turn_wrote hfits hwrites metrics hactive hv⟩
  | commit t =>
    refine passage_of_run (t := t) rfl (idle_refl s) h rfl fun j hj => ?_
    have hfits := h.fits t j hj
    obtain ⟨f, he, -⟩ | ⟨he, -⟩ := Checking.commit_exec (w := w) (b := s.base) hfits.opened
    · exact ⟨_, _, _, he, turn_failed hfits h.memory j.lockAttempted⟩
    · exact ⟨_, _, _, he, LocalSetup.turn_ended hfits h.memory (by simp)⟩
  | rollback t =>
    refine passage_of_run (t := t) rfl (idle_refl s) h rfl fun j hj => ?_
    have hfits := h.fits t j hj
    obtain ⟨f, he, -⟩ | ⟨he, -⟩ := Checking.rollback_exec (w := w) (b := s.base) hfits.opened
    · exact ⟨_, _, _, he, turn_failed hfits h.memory j.lockAttempted⟩
    · exact ⟨_, _, _, he, LocalSetup.turn_ended hfits h.memory (by simp)⟩

end RowGraph
