import RowGraph.Proofs.JointCalls
import RowGraph.Storage.Checked

/-!
# Turns of joint transactions

A `Turn` says all that one call of a joint transaction may do to the transaction and to the layers below
it, for each of the deeds that a call comes down to: taking a lock, mutating columns, ending, or none of
these.  `Sound` is what all transactions keep true together: in particular a column that an active
transaction has locked is locked by no other (`Sound.alone`).  It survives every turn (`Sound.turn`).
-/

namespace RowGraph

/-- The layers of a checking backend over memory. -/
abbrev LocalLayers := Checked Local StoreHandle TxHandle String

/-- What a successful call has done. -/
inductive Deed where
  | nothing
  /-- Locked a column, which is expected to hold a value or nothing. -/
  | locked (column : LockedColumn) (expected : Option Bytes)
  /-- Deleted or added columns. -/
  | wrote (columns : List LockedColumn)
  | ended
  deriving DecidableEq, Repr

namespace Deed

/-- The columns deleted or added. -/
def columns : Deed → List LockedColumn
  | wrote columns => columns
  | _ => []

/-- What a column is expected to hold from then on, if it was locked. -/
def expectation? (column : LockedColumn) : Deed → Option (Option Bytes)
  | locked c expected => if c = column then some expected else none
  | _ => none

/-- Did a mutation go through? -/
def isWrite : Deed → Bool
  | wrote _ => true
  | _ => false

end Deed

namespace LocalSetup

variable {w : LocalSetup} {j j' : Joint StoreHandle TxHandle String} {b b' : Local} {d : Deed}

/-- The owner of the lock on a column. -/
def owner? (w : LocalSetup) (b : Local) (c : LockedColumn) : Option Nat :=
  b.lockers.owner? (c.store ++ w.checking.suffix) c.target

/-- A transaction knows its stores by name, and its parts are two transactions of the memory, open as
long as it is active. -/
structure Fits (m : Memory) (j : Joint StoreHandle TxHandle String) : Prop where
  stores : ∀ name store locker, j.stores.get? name = some (store, locker) →
    m.stores.get? name = some store.number
  apart : j.inconsistent.number < j.consistent.number
  begun : j.consistent.number ≤ m.begun
  opened : j.state = .active → Checking.PartsOpen j m

/-- What a call of a transaction may do to the transaction and to the layers below. -/
structure Turn (w : LocalSetup) (d : Deed) (j : Joint StoreHandle TxHandle String) (b : Local)
    (j' : Joint StoreHandle TxHandle String) (b' : Local) : Prop where
  inconsistent : j'.inconsistent = j.inconsistent
  consistent : j'.consistent = j.consistent
  expected : ∀ c, j'.expected.get? c = (d.expectation? c).or (j.expected.get? c)
  /-- Locks are not taken any more once mutating has begun. -/
  locking : ∀ c e, d = .locked c e → j.state = .active ∧ j'.mutationsStarted = false
  writing : d.isWrite = true → j.state = .active ∧ j'.mutationsStarted = true
  keepsOn : j.mutationsStarted = true → j'.mutationsStarted = true
  /-- When mutating begins all columns hold what is expected. -/
  starting : j'.mutationsStarted = true → j.mutationsStarted = true ∨
    ∀ c e, j.expected.get? c = some e → b.memory.holds c = e
  active : j'.state = .active ↔ j.state = .active ∧ d ≠ .ended
  fits : Fits b'.memory j'
  memory : b'.memory.Sound
  stores : ∀ name n, b.memory.stores.get? name = some n → b'.memory.stores.get? name = some n
  begun : b'.memory.begun = b.memory.begun
  records : ∀ t : TxHandle, t.number ≠ j.inconsistent.number → t.number ≠ j.consistent.number →
    b'.memory.record t = b.memory.record t
  holds : ∀ c, c ∉ d.columns → b'.memory.holds c = b.memory.holds c
  /-- The locks of others stay theirs. -/
  owners : ∀ c n, w.owner? b c = some n → n ≠ j.consistent.number → w.owner? b' c = some n
  held : (∀ c, j.state = .active → (j.expected.get? c).isSome → w.owner? b c = some j.consistent.number) →
    ∀ c, j'.state = .active → (j'.expected.get? c).isSome → w.owner? b' c = some j.consistent.number

theorem Fits.holds (h : Fits b.memory j) {c : LockedColumn} {store : StoreHandle} {locker : String}
    (hs : j.stores.get? c.store = some (store, locker)) :
    Checking.seen b store c.target = b.memory.holds c := by
  unfold Checking.seen Memory.holds Memory.contents
  rw [h.stores _ _ _ hs]

theorem holds_of_verified (h : Fits b.memory j) (hv : Checking.Verified j b) :
    ∀ c e, j.expected.get? c = some e → b.memory.holds c = e := by
  intro c e he
  obtain ⟨store, locker, hs, hseen⟩ := hv c e he
  rw [← h.holds hs, hseen]

theorem Fits.update {m m' : Memory} (h : Fits m j) (hi : j'.inconsistent = j.inconsistent)
    (hc : j'.consistent = j.consistent)
    (hs : ∀ name store locker, j'.stores.get? name = some (store, locker) →
      m'.stores.get? name = some store.number)
    (hb : m.begun ≤ m'.begun)
    (hr : j'.state = .active → j.state = .active ∧ m'.record j.inconsistent = m.record j.inconsistent ∧
      m'.record j.consistent = m.record j.consistent) : Fits m' j' where
  stores := hs
  apart := by rw [hi, hc]; exact h.apart
  begun := by rw [hc]; exact Nat.le_trans h.begun hb
  opened ha := by
    obtain ⟨hactive, hri, hrc⟩ := hr ha
    have hopen := h.opened hactive
    exact ⟨by rw [hi, hri]; exact hopen.inconsistent, by rw [hc, hrc]; exact hopen.consistent,
      by rw [hi, hc]; exact hopen.apart⟩

/-! ## The turns -/

/-- A turn that leaves the layers below alone and at most begins to mutate. -/
theorem turn_nothing (h : Fits b.memory j) (hm : b.memory.Sound) (attempted : Bool) {started : Bool}
    (hstarted : j.mutationsStarted = true → started = true)
    (hv : started = true → j.mutationsStarted = false → Checking.Verified j b) :
    Turn w .nothing j b { j with lockAttempted := attempted, mutationsStarted := started } b where
  inconsistent := rfl
  consistent := rfl
  expected _ := rfl
  locking _ _ hd := by cases hd
  writing hd := by cases hd
  keepsOn := hstarted
  starting hs := by
    cases hj : j.mutationsStarted with
    | true => exact .inl rfl
    | false => exact .inr (holds_of_verified h (hv hs hj))
  active := by simp
  fits := h.update rfl rfl h.stores (Nat.le_refl _) fun ha => ⟨ha, rfl, rfl⟩
  memory := hm
  stores _ _ hn := hn
  begun := rfl
  records _ _ _ := rfl
  holds _ _ := rfl
  owners _ _ hn _ := hn
  held hheld := hheld

theorem turn_wrote (h : Fits b.memory j) {columns : List LockedColumn} {m : Memory}
    (hw : b.memory.Writes columns m) (metrics : Metrics) (hactive : j.state = .active)
    (hv : j.mutationsStarted = false → Checking.Verified j b) :
    Turn w (.wrote columns) j b { j with mutationsStarted := true }
      { b with memory := m, metrics := metrics } where
  inconsistent := rfl
  consistent := rfl
  expected _ := rfl
  locking _ _ hd := by cases hd
  writing _ := ⟨hactive, rfl⟩
  keepsOn _ := rfl
  starting _ := by
    cases hj : j.mutationsStarted with
    | true => exact .inl rfl
    | false => exact .inr (holds_of_verified h (hv hj))
  active := by simp
  fits := by
    have hrecord (t : TxHandle) : m.record t = b.memory.record t := by
      unfold Memory.record
      rw [hw.transactions]
    exact h.update rfl rfl (fun name store locker hs => hw.stores _ _ (h.stores name store locker hs))
      (Nat.le_of_eq hw.begun.symm) fun ha => ⟨ha, hrecord _, hrecord _⟩
  memory := hw.sound
  stores := hw.stores
  begun := hw.begun
  records t _ _ := by
    unfold Memory.record
    rw [hw.transactions]
  holds := hw.holds
  owners _ _ hn _ := hn
  held hheld := hheld

theorem turn_locked (h : Fits b.memory j) (hm : b.memory.Sound) {store : CheckedStore StoreHandle String}
    (hstore : b.memory.stores.get? store.name = some store.store.number)
    (hlocker : store.locker = store.name ++ w.checking.suffix) {target : LockTarget} {lockers : Lockers}
    (e : Option Bytes) (hactive : j.state = .active) (hstarted : j.mutationsStarted = false)
    (hwrite : b.lockers.write (now b) w.lease store.locker j.consistent.number target = .ok lockers)
    (hlast : b.lockers.Lasting (now b)) :
    Turn w (.locked ⟨store.name, target⟩ e) j b
      (({ j with lockAttempted := true } : Joint StoreHandle TxHandle String).expect store.name
        (store.store, store.locker) target e)
      { b with lockers := lockers } where
  inconsistent := rfl
  consistent := rfl
  expected c := by
    simp only [Joint.expect, SortedMap.get?_put, Deed.expectation?]
    by_cases hc : c = ⟨store.name, target⟩
    · rw [if_pos hc, if_pos hc.symm]
      rfl
    · rw [if_neg hc, if_neg (Ne.symm hc)]
      rfl
  locking _ _ _ := ⟨hactive, hstarted⟩
  writing hd := by cases hd
  keepsOn hs := hs
  starting hs := .inl hs
  active := by simp [Joint.expect]
  fits := by
    refine h.update rfl rfl (fun name st locker hs => ?_) (Nat.le_refl _) fun ha => ⟨ha, rfl, rfl⟩
    rw [Joint.get?_expect] at hs
    split at hs
    · rename_i hname
      cases hs
      rw [hname.1]
      exact hstore
    · exact h.stores _ _ _ hs
  memory := hm
  stores _ _ hn := hn
  begun := rfl
  records _ _ _ := rfl
  holds _ _ := rfl
  owners c n hn hne := by
    unfold owner? at hn ⊢
    dsimp only
    rw [Lockers.owner?_write hwrite, if_neg, hn]
    rintro ⟨hname, htarget⟩
    rw [hname, htarget] at hn
    exact hne (Lockers.owner?_of_write hlast hwrite hn)
  held hheld c hactive' hc := by
    unfold owner?
    dsimp only
    rw [Lockers.owner?_write hwrite]
    split
    · rfl
    · rename_i hother
      refine hheld c hactive ?_
      simp only [Joint.expect, SortedMap.get?_put] at hc
      rwa [if_neg] at hc
      rintro rfl
      exact hother ⟨hlocker.symm, rfl⟩

theorem turn_ended (h : Fits b.memory j) (hm : b.memory.Sound) {state : JointState}
    (hstate : state ≠ .active) :
    Turn w .ended j b { j with state := state } (Checking.ended j b) where
  inconsistent := rfl
  consistent := rfl
  expected _ := rfl
  locking _ _ hd := by cases hd
  writing hd := by cases hd
  keepsOn hs := hs
  starting hs := .inl hs
  active := by simp [hstate]
  fits := h.update rfl rfl h.stores (Nat.le_refl _) fun ha => absurd ha hstate
  memory := ⟨hm.opened, hm.apart, hm.blank⟩
  stores _ _ hn := hn
  begun := rfl
  records t hi hc := by
    unfold Checking.ended
    rw [Memory.record_closed hc, Memory.record_closed hi]
  holds _ _ := rfl
  owners c n hn hne := Checking.owner?_released hn hne _
  held _ _ ha := absurd ha hstate

/-! ## All transactions together -/

/-- What every run keeps true of the layers. -/
structure Sound (w : LocalSetup) (s : LocalLayers) : Prop where
  memory : s.base.memory.Sound
  /-- An open store and its locker go by its name. -/
  stores : ∀ name store, s.stores.get? name = some store → store.name = name ∧
    store.locker = name ++ w.checking.suffix ∧
    s.base.memory.stores.get? name = some store.store.number
  begun : ∀ t j, s.joints.get? t = some j → t < s.begun
  fits : ∀ t j, s.joints.get? t = some j → Fits s.base.memory j
  apart : ∀ t u j k, s.joints.get? t = some j → s.joints.get? u = some k → t < u →
    j.consistent.number < k.inconsistent.number
  /-- What an active transaction has locked is locked for it. -/
  held : ∀ t j c, s.joints.get? t = some j → j.state = .active → (j.expected.get? c).isSome →
    w.owner? s.base c = some j.consistent.number

variable {s : LocalLayers} {t u : Nat} {k : Joint StoreHandle TxHandle String}

/-- The parts of two transactions are four transactions. -/
theorem Sound.parts_ne (h : w.Sound s) (hj : s.joints.get? t = some j) (hk : s.joints.get? u = some k)
    (hne : u ≠ t) : k.inconsistent.number ≠ j.inconsistent.number ∧
      k.inconsistent.number ≠ j.consistent.number ∧
      k.consistent.number ≠ j.inconsistent.number ∧ k.consistent.number ≠ j.consistent.number := by
  have hj' := (h.fits t j hj).apart
  have hk' := (h.fits u k hk).apart
  rcases Nat.lt_or_gt_of_ne hne with hlt | hlt
  · have := h.apart u t k j hk hj hlt
    omega
  · have := h.apart t u j k hj hk hlt
    omega

/-- No two active transactions have locked one column. -/
theorem Sound.alone (h : w.Sound s) (hj : s.joints.get? t = some j) (hk : s.joints.get? u = some k)
    (hactive : j.state = .active) (hactive' : k.state = .active) {c : LockedColumn}
    (hc : (j.expected.get? c).isSome) (hc' : (k.expected.get? c).isSome) : u = t := by
  refine Decidable.byContradiction fun hne => (h.parts_ne hj hk hne).2.2.2 ?_
  have ht := h.held t j c hj hactive hc
  have hu := h.held u k c hk hactive' hc'
  exact Option.some.inj (hu.symm.trans ht)

theorem Sound.turn (h : w.Sound s) (hj : s.joints.get? t = some j) (ht : w.Turn d j s.base j' b') :
    w.Sound { s with base := b', joints := s.joints.put t j' } where
  memory := ht.memory
  stores name store hs := by
    obtain ⟨hname, hlocker, hn⟩ := h.stores name store hs
    exact ⟨hname, hlocker, ht.stores _ _ hn⟩
  begun u k hk := by
    rw [SortedMap.get?_put] at hk
    split at hk
    · rename_i hu
      exact hu ▸ h.begun t j hj
    · exact h.begun u k hk
  fits u k hk := by
    rw [SortedMap.get?_put] at hk
    split at hk
    · cases hk
      exact ht.fits
    · rename_i hne
      obtain ⟨h₁, h₂, h₃, h₄⟩ := h.parts_ne hj hk hne
      have hfits := h.fits u k hk
      refine hfits.update rfl rfl (fun name store locker hs => ht.stores _ _ (hfits.stores _ _ _ hs))
        (Nat.le_of_eq ht.begun.symm) fun ha => ⟨ha, ht.records _ h₁ h₂, ht.records _ h₃ h₄⟩
  apart u v k l hk hl huv := by
    rw [SortedMap.get?_put] at hk hl
    split at hk <;> split at hl
    · omega
    · rename_i hu _
      cases hk
      rw [ht.consistent]
      exact h.apart t v j l hj hl (hu ▸ huv)
    · rename_i _ hv
      cases hl
      rw [ht.inconsistent]
      exact h.apart u t k j hk hj (hv ▸ huv)
    · exact h.apart u v k l hk hl huv
  held u k c hk hactive hc := by
    rw [SortedMap.get?_put] at hk
    split at hk
    · cases hk
      rw [ht.consistent]
      exact ht.held (fun c => h.held t j c hj) c hactive hc
    · rename_i hne
      exact ht.owners c _ (h.held u k c hk hactive hc) (h.parts_ne hj hk hne).2.2.2

end LocalSetup

end RowGraph
