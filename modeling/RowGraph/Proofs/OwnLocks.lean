import RowGraph.Proofs.JointLocks

/-!
# The locks of a transaction that ends

A joint transaction knows every locker that holds a lock of its own or was asked for one (`Accounts`), so
that its end reaches all of them.

* `releases_own`: a commit that succeeds, and every rollback of an active transaction, takes away all records
  of the transaction and no other, in every run over any number of stores and transactions.
-/

namespace RowGraph

variable {σ S T : Type}

/-- Others leave the lockers alone, and locks are asked for in lockers that go by the names of the stores. -/
def LayerCall.Orderly (suffix : String) (get : σ → Local) (issued : σ → Nat → Prop) :
    LayerCall σ S T String → Prop
  | .given _ (.meanwhile change) => ∀ s, Beside get issued s (change s)
  | .given _ (.lock store ..) => store.locker = store.name ++ suffix
  | _ => True

/-- A commit of a joint transaction that succeeds, or a rollback of an active one. -/
def MadeLayerCall.Finishes {L : Type} (m : MadeLayerCall σ S T L) (t : Nat) (j : Joint S T L) : Prop :=
  m.before.joints.get? t = some j ∧
    (m.call = .given (.joint t) .commit ∧ m.outcome = .ok () ∨
      m.call = .given (.joint t) .rollback ∧ j.state = .active)

/-- What becomes of locks when transactions end. -/
structure ReleasesOwn (suffix : String) (get : σ → Local) (number : T → Nat)
    (made : List (MadeLayerCall σ S T String)) : Prop where
  /-- No locker holds a record of the transaction any more, and every record of another owner is as it was. -/
  released : ∀ m ∈ made, ∀ t j, m.Finishes t j → ∀ locker target r,
    (get m.after.base).lockRecord? locker target = some r ↔
      (get m.before.base).lockRecord? locker target = some r ∧ r.owner ≠ number j.consistent
  /-- Two transactions own no lock together. -/
  apart : ∀ m ∈ made, ∀ t u j k, m.before.joints.get? t = some j → m.before.joints.get? u = some k → t ≠ u →
    number j.consistent ≠ number k.consistent
  /-- The stores that are opened have the lockers of their names. -/
  named : ∀ m ∈ made, ∀ name store, m.before.stores.get? name = some store →
    store.locker = store.name ++ suffix

/-- The transaction that owns locks under a number knows a locker. -/
def Knows (number : T → Nat) (joints : SortedMap Nat (Joint S T String)) (owner : Nat) (locker : String) :
    Prop :=
  ∃ t j, joints.get? t = some j ∧ number j.consistent = owner ∧
    ∃ name opened, j.stores.get? name = some opened ∧ opened.2 = locker

/-- Transactions have numbers of their own and know the lockers of all their locks. -/
structure Accounts (suffix : String) (get : σ → Local) (number : T → Nat) (issued : σ → Nat → Prop)
    (s : Checked σ S T String) : Prop where
  counted : s.Counted
  stores : ∀ name store, s.stores.get? name = some store → store.locker = store.name ++ suffix
  issued : ∀ t j, s.joints.get? t = some j → issued s.base (number j.consistent)
  apart : ∀ t u j k, s.joints.get? t = some j → s.joints.get? u = some k →
    number j.consistent = number k.consistent → t = u
  named : ∀ t j, s.joints.get? t = some j → ∀ name opened, j.stores.get? name = some opened →
    opened.2 = name ++ suffix
  backed : (get s.base).lockers.Backed (Knows number s.joints)

namespace Accounts

section

variable {suffix : String} {get : σ → Local} {number : T → Nat} {issued : σ → Nat → Prop}
  {s s' : Checked σ S T String} {t : Nat} {j j' : Joint S T String} {b : σ}

theorem new {base : σ} (hbase : (get base).lockers = .empty) :
    Accounts suffix get number issued (Checked.new base : Checked σ S T String) where
  counted _ _ h := by cases h
  stores _ _ h := by cases h
  issued _ _ h := by cases h
  apart _ _ _ _ h := by cases h
  named _ _ h := by cases h
  backed := by
    change (get base).lockers.Backed _
    rw [hbase]
    exact .empty _

/-- Where a transaction comes from: it was there before with the same parts, or it is begun under a number
that was not issued before. -/
def Origin (number : T → Nat) (issued : σ → Nat → Prop) (s s' : Checked σ S T String) (u : Nat)
    (k : Joint S T String) : Prop :=
  (∃ k', s.joints.get? u = some k' ∧ k'.consistent = k.consistent) ∨
    u = s.begun ∧ ¬ issued s.base (number k.consistent) ∧ issued s'.base (number k.consistent)

/-- What is left to say when it is known where all transactions come from. -/
theorem next (h : Accounts suffix get number issued s) (hcounted : s'.Counted)
    (hstores : ∀ name store, s'.stores.get? name = some store → store.locker = store.name ++ suffix)
    (horigin : ∀ u k, s'.joints.get? u = some k → Origin number issued s s' u k)
    (hissued : ∀ n, issued s.base n → issued s'.base n)
    (hnamed : ∀ u k, s'.joints.get? u = some k → ∀ name opened, k.stores.get? name = some opened →
      opened.2 = name ++ suffix)
    (hbacked : (get s'.base).lockers.Backed (Knows number s'.joints)) :
    Accounts suffix get number issued s' where
  counted := hcounted
  stores := hstores
  issued u k hk := by
    obtain ⟨k', hk', hsame⟩ | ⟨-, -, hnew⟩ := horigin u k hk
    · rw [← hsame]
      exact hissued _ (h.issued u k' hk')
    · exact hnew
  apart u v k l hk hl hsame := by
    obtain ⟨k', hk', hparts⟩ | ⟨hu, hfresh, -⟩ := horigin u k hk <;>
      obtain ⟨l', hl', hparts'⟩ | ⟨hv, hfresh', -⟩ := horigin v l hl
    · rw [← hparts, ← hparts'] at hsame
      exact h.apart u v k' l' hk' hl' hsame
    · rw [← hsame, ← hparts] at hfresh'
      exact absurd (h.issued u k' hk') hfresh'
    · rw [hsame, ← hparts'] at hfresh
      exact absurd (h.issued v l' hl') hfresh
    · rw [hu, hv]
  named := hnamed
  backed := hbacked

/-- Calls that pass the transactions by. -/
theorem passed (h : Accounts suffix get number issued s) (hcounted : s'.Counted)
    (hstores : ∀ name store, s'.stores.get? name = some store → store.locker = store.name ++ suffix)
    (hjoints : ∀ t, (s'.joints.get? t).map Joint.undated = (s.joints.get? t).map Joint.undated)
    (hbase : Beside get issued s.base s'.base) : Accounts suffix get number issued s' := by
  have hparts {k k' : Joint S T String} (hsame : k'.undated = k.undated) :
      k'.consistent = k.consistent ∧ k'.stores = k.stores := by
    have hconsistent : k'.undated.consistent = k.undated.consistent := congrArg Joint.consistent hsame
    have hstores : k'.undated.stores = k.undated.stores := congrArg Joint.stores hsame
    exact ⟨hconsistent, hstores⟩
  refine h.next hcounted hstores (fun u k hk => ?_) hbase.2 (fun u k hk => ?_) ?_
  · obtain ⟨k', hk', hsame⟩ := undated_eq (hjoints u).symm hk
    exact .inl ⟨k', hk', (hparts hsame).1⟩
  · obtain ⟨k', hk', hsame⟩ := undated_eq (hjoints u).symm hk
    rw [← (hparts hsame).2]
    exact h.named u k' hk'
  · rw [hbase.1]
    refine h.backed.mono ?_
    rintro owner locker ⟨u, k, hk, howner, hknown⟩
    obtain ⟨k', hk', hsame⟩ := undated_eq (hjoints u) hk
    obtain ⟨hconsistent, hstores⟩ := hparts hsame
    exact ⟨u, k', hk', by rw [hconsistent, howner], by rwa [hstores]⟩

/-- A transaction is begun under a number that was not issued before. -/
theorem begun (h : Accounts suffix get number issued s) (hcounted : s'.Counted) (hopened : s'.stores = s.stores)
    (hjoints : s'.joints = s.joints.put s.begun j) (hbase : Beside get issued s.base s'.base)
    (hfresh : ¬ issued s.base (number j.consistent)) (hissued : issued s'.base (number j.consistent))
    (hstores : j.stores = .empty) : Accounts suffix get number issued s' := by
  refine h.next hcounted (hopened ▸ h.stores) (fun u k hk => ?_) hbase.2 (fun u k hk => ?_) ?_
  · rw [hjoints] at hk
    obtain ⟨hu, rfl⟩ | hbefore := SortedMap.get?_put_cases hk
    · exact .inr ⟨hu, hfresh, hissued⟩
    · exact .inl ⟨k, hbefore, rfl⟩
  · rw [hjoints] at hk
    obtain ⟨-, rfl⟩ | hbefore := SortedMap.get?_put_cases hk
    · intro name opened hopened
      rw [hstores] at hopened
      cases hopened
    · exact h.named u k hbefore
  · rw [hbase.1]
    refine h.backed.mono ?_
    rintro owner locker ⟨u, k, hk, hrest⟩
    have hother : u ≠ s.begun := Nat.ne_of_lt (h.counted u k hk)
    refine ⟨u, k, ?_, hrest⟩
    rw [hjoints]
    exact (SortedMap.get?_put_of_ne hother ..).trans hk

/-- A request is served in a transaction, which knows its lockers. -/
theorem turn (h : Accounts suffix get number issued s) (hj : s.joints.get? t = some j)
    (hcounted : Checked.Counted { s with base := b, joints := s.joints.put t j' })
    (hconsistent : j'.consistent = j.consistent)
    (hnamed : ∀ name opened, j'.stores.get? name = some opened → opened.2 = name ++ suffix)
    (hissued : ∀ n, issued s.base n → issued b n)
    (hbacked : (get b).lockers.Backed (Knows number (s.joints.put t j'))) :
    Accounts suffix get number issued { s with base := b, joints := s.joints.put t j' } := by
  refine h.next hcounted h.stores (fun u k hk => ?_) hissued (fun u k hk => ?_) hbacked
  · obtain ⟨rfl, rfl⟩ | hbefore := SortedMap.get?_put_cases hk
    · exact .inl ⟨j, hj, hconsistent.symm⟩
    · exact .inl ⟨k, hbefore, rfl⟩
  · obtain ⟨-, rfl⟩ | hbefore := SortedMap.get?_put_cases hk
    · exact hnamed
    · exact h.named u k hbefore

/-- Changing a transaction that keeps its number and loses no store leaves known what was known. -/
theorem knows_put (hj : s.joints.get? t = some j) (hconsistent : j'.consistent = j.consistent)
    (hstores : ∀ name opened, j.stores.get? name = some opened → j'.stores.get? name = some opened)
    {owner : Nat} {locker : String} (hknows : Knows number s.joints owner locker) :
    Knows number (s.joints.put t j') owner locker := by
  obtain ⟨u, k, hk, howner, name, opened, hopened, hlocker⟩ := hknows
  by_cases hu : u = t
  · subst hu
    obtain rfl := Option.some.inj (hk.symm.trans hj)
    refine ⟨u, j', SortedMap.get?_put_self .., ?_, name, opened, hstores _ _ hopened, hlocker⟩
    rw [hconsistent, howner]
  · exact ⟨u, k, (SortedMap.get?_put_of_ne hu ..).trans hk, howner, name, opened, hopened, hlocker⟩

/-- A request that leaves the lockers as they were, or at most released. -/
theorem turn_left (h : Accounts suffix get number issued s) (hj : s.joints.get? t = some j)
    (hcounted : Checked.Counted { s with base := b, joints := s.joints.put t j' }) {l : Lockers}
    (hleft : LeftLockers get issued j s.base l (j', b)) (hl : l.Backed (Knows number s.joints)) :
    Accounts suffix get number issued { s with base := b, joints := s.joints.put t j' } := by
  have hstores : j'.stores = j.stores := hleft.stores
  refine h.turn hj hcounted hleft.consistent ?_ hleft.issued ?_
  · rw [hstores]
    exact h.named t j hj
  · have hlockers : (get b).lockers = l := hleft.lockers
    rw [hlockers]
    refine hl.mono fun owner locker hknows => knows_put hj hleft.consistent ?_ hknows
    rw [hstores]
    exact fun _ _ hopened => hopened

/-- A lock that is taken and noted with its locker. -/
theorem turn_locked (h : Accounts suffix get number issued s) (hj : s.joints.get? t = some j)
    (hcounted : Checked.Counted { s with base := b, joints := s.joints.put t j' })
    {store : CheckedStore S String} {target : LockTarget} {e : Option Bytes} {time lease : Nanos}
    (hname : store.locker = store.name ++ suffix)
    (hwrite : (get s.base).lockers.write time lease store.locker (number j.consistent) target =
      .ok (get b).lockers)
    (hnoted : j' = ({ j with lockAttempted := true } : Joint S T String).expect store.name
      (store.store, store.locker) target e) (hissued : ∀ n, issued s.base n → issued b n) :
    Accounts suffix get number issued { s with base := b, joints := s.joints.put t j' } := by
  have hget (name : String) : j'.stores.get? name =
      if name = store.name ∧ j.stores.get? name = none then some (store.store, store.locker)
        else j.stores.get? name := by
    rw [hnoted]
    exact Joint.get?_expect ..
  have hconsistent : j'.consistent = j.consistent := by rw [hnoted]; rfl
  have hstores : ∀ name opened, j.stores.get? name = some opened → j'.stores.get? name = some opened := by
    intro name opened hopened
    rw [hget, if_neg (fun hnew => by rw [hopened] at hnew; cases hnew.2)]
    exact hopened
  have hnamed : ∀ name opened, j'.stores.get? name = some opened → opened.2 = name ++ suffix := by
    intro name opened hopened
    rw [hget] at hopened
    split at hopened
    · rename_i hnew
      cases hopened
      rw [hnew.1]
      exact hname
    · exact h.named t j hj name opened hopened
  -- The locker is noted now, or it was noted before under the same name.
  have hknown : Knows number (s.joints.put t j') (number j.consistent) store.locker := by
    refine ⟨t, j', SortedMap.get?_put_self .., by rw [hconsistent], store.name, ?_⟩
    cases hfound : j.stores.get? store.name with
    | none => exact ⟨(store.store, store.locker), by rw [hget, if_pos ⟨rfl, hfound⟩], rfl⟩
    | some opened => exact ⟨opened, hstores _ _ hfound, (h.named t j hj _ _ hfound).trans hname.symm⟩
  refine h.turn hj hcounted hconsistent hnamed hissued ?_
  refine Lockers.Backed.write ?_ hwrite hknown
  exact h.backed.mono fun owner locker hknows => knows_put hj hconsistent hstores hknows

/-- The end of a transaction that releases its locks reaches all of them. -/
theorem record_of_freed (h : Accounts suffix get number issued s) (hj : s.joints.get? t = some j) {b : Local}
    (hb : b.lockers = Checking.OwnsLockers.freed get number j s.base) (locker : String) (target : LockTarget)
    (r : LockRecord) : b.lockRecord? locker target = some r ↔
      (get s.base).lockRecord? locker target = some r ∧ r.owner ≠ number j.consistent := by
  unfold Local.lockRecord?
  rw [hb]
  refine h.backed.held_released_all fun locker hknows => ?_
  obtain ⟨u, k, hk, howner, name, opened, hopened, rfl⟩ := hknows
  obtain rfl := h.apart u t k j hk hj howner
  obtain rfl := Option.some.inj (hk.symm.trans hj)
  have hvalue : opened ∈ k.stores.values := SortedMap.mem_values_iff.mpr ⟨name, hopened⟩
  exact List.mem_map_of_mem hvalue

end

variable [Timed σ] [Metered σ] {c : Checking σ S T String} {lease : Nanos} {get : σ → Local}
  {set : σ → Local → σ} {number : T → Nat} {issued : σ → Nat → Prop} {s : Checked σ S T String}

theorem step (h : Accounts c.suffix get number issued s) (hc : c.OwnsLockers lease get set number issued)
    {call : LayerCall σ S T String} (horderly : call.Orderly c.suffix get issued) :
    Accounts c.suffix get number issued (call.made c s).after := by
  have hcounted : (call.made c s).after.Counted := keeps_counted h.counted call
  have hothers : ∀ tx change, call = .given tx (.meanwhile change) → ∀ s, Beside get issued s (change s) := by
    rintro tx change rfl
    exact horderly
  cases effect_layer (s := s) hc.allows call hothers with
  | passed hjoints hbegun hbase hopens =>
    have hstores : ∀ name store, (call.made c s).after.stores.get? name = some store →
        store.locker = store.name ++ c.suffix := by
      intro name store hstore
      obtain hbefore | ⟨serial, b, b', hopened⟩ := hopens name store hstore
      · exact h.stores name store hbefore
      · exact hc.locker_opened hopened
    exact h.passed hcounted hstores hjoints hbase
  | begun hexec hjoints hbegun hopened =>
    obtain ⟨hbase, hfresh, hissued, hstores⟩ := hc.begun_fresh hexec
    exact h.begun hcounted hopened hjoints hbase hfresh hissued hstores
  | @served t r j hcall hj houtcome hafter =>
    obtain rfl : call = .given (.joint t) r := hcall
    rw [hafter] at hcounted ⊢
    have hleft {l : Lockers} (hleft : LeftLockers get issued j s.base l ((r.run c).exec (j, s.base)).2)
        (hl : l.Backed (Knows number s.joints)) := h.turn_left hj hcounted hleft hl
    have hfreed : (Checking.OwnsLockers.freed get number j s.base).Backed (Knows number s.joints) :=
      h.backed.released _ _
    have hbeyond (hlock : r.isLock = false) (hends : r.isEnding = false) :
        LeftLockers get issued j s.base (get s.base).lockers ((r.run c).exec (j, s.base)).2 := by
      have hrun := hc.allows.beyond_run hlock hends (fun change hr => hothers _ change (by rw [hr]))
        (j, s.base) ⟨rfl, rfl, hc.allows.refl s.base⟩
      obtain ⟨hconsistent, hstores, hlockers, hissued⟩ := hrun.1
      exact ⟨hconsistent, hstores, hlockers, hissued⟩
    cases r with
    | lock store key column e =>
      obtain hkept | ⟨time, lockers, hwrite, hnoted, hlockers, hissued⟩ :=
        hc.lock_effect store key column e j s.base
      · exact hleft hkept h.backed
      · subst hlockers
        exact h.turn_locked hj hcounted horderly hwrite hnoted hissued
    | commit =>
      obtain hkept | ⟨hkept, -⟩ := hc.commit_effect j s.base
      · exact hleft hkept hfreed
      · exact hleft hkept h.backed
    | rollback =>
      obtain hkept | ⟨hkept, -⟩ := hc.rollback_effect j s.base
      · exact hleft hkept hfreed
      · exact hleft hkept h.backed
    | _ => exact hleft (hbeyond rfl rfl) h.backed

end Accounts

section

variable [Timed σ] [Metered σ] {c : Checking σ S T String} {lease : Nanos} {get : σ → Local}
  {set : σ → Local → σ} {number : T → Nat} {issued : σ → Nat → Prop}

/-- The locks after a call that ends a transaction. -/
theorem freed_of_finishes (hc : c.OwnsLockers lease get set number issued) {s : Checked σ S T String}
    {call : LayerCall σ S T String} {t : Nat} {j : Joint S T String} (h : (call.made c s).Finishes t j) :
    (get (call.made c s).after.base).lockers = Checking.OwnsLockers.freed get number j s.base := by
  have hj : s.joints.get? t = some j := h.1
  obtain ⟨hcall, hok⟩ | ⟨hcall, hactive⟩ := h.2
  · obtain rfl : call = .given (.joint t) .commit := hcall
    change ((JointRequest.commit.through c (.joint t)).exec s).1 = .ok () at hok
    change (get ((JointRequest.commit.through c (.joint t)).exec s).2.base).lockers = _
    rw [given_joint hj] at hok ⊢
    obtain hfreed | ⟨-, f, hf⟩ := hc.commit_effect j s.base
    · exact hfreed.lockers
    · exact absurd (hf.symm.trans hok) (by simp)
  · obtain rfl : call = .given (.joint t) .rollback := hcall
    change (get ((JointRequest.rollback.through c (.joint t)).exec s).2.base).lockers = _
    rw [given_joint hj]
    obtain hfreed | ⟨-, hended⟩ := hc.rollback_effect j s.base
    · exact hfreed.lockers
    · exact absurd hactive hended

/-- A transaction that ends takes exactly its own locks with it: over any inner backend that leaves the
lockers alone, with any lease, whatever fails, expires or is taken over before, and whatever fails when
the transaction is rolled back. -/
theorem releases_own (hc : c.OwnsLockers lease get set number issued) {base : σ}
    (hbase : (get base).lockers = .empty) (calls : List (LayerCall σ S T String))
    (hcalls : ∀ call ∈ calls, call.Orderly c.suffix get issued) :
    ReleasesOwn c.suffix get number (layerHistory c calls (.new base)) := by
  have hmade : ∀ m ∈ layerHistory c calls (.new base),
      Accounts c.suffix get number issued m.before ∧ m = m.call.made c m.before := by
    intro m hm
    obtain ⟨past, rest, hsplit⟩ := List.append_of_mem hm
    obtain ⟨haccounts, -, hmade, -⟩ := kept_before (I := Accounts c.suffix get number issued)
      (fun call hcall s hs => hs.step hc (hcalls call hcall)) (.new hbase) hsplit
    exact ⟨haccounts, hmade⟩
  refine ⟨?_, ?_, fun m hm => (hmade m hm).1.stores⟩
  · intro m hm t j hfinishes locker target r
    obtain ⟨haccounts, hcall⟩ := hmade m hm
    have hj : m.before.joints.get? t = some j := hfinishes.1
    rw [hcall] at hfinishes
    have hlockers := freed_of_finishes hc hfinishes
    rw [← hcall] at hlockers
    exact haccounts.record_of_freed hj hlockers locker target r
  · intro m hm t u j k hj hk hne hsame
    exact hne ((hmade m hm).1.apart t u j k hj hk hsame)

end

/-! ## A lock that changes hands -/

namespace Memory

theorem begun_foldl {β : Type} {f : Memory → β → Memory} (hf : ∀ m x, (f m x).begun = m.begun) (xs : List β)
    (m : Memory) : (xs.foldl f m).begun = m.begun := by
  induction xs generalizing m with
  | nil => rfl
  | cons x xs ih => rw [List.foldl_cons, ih, hf]

theorem begun_store (m : Memory) (name : String) : (m.store name).2.begun = m.begun := by
  unfold store
  split <;> rfl

theorem begun_mutateMany (m : Memory) (batch : Batch) : (m.mutateMany batch).begun = m.begun := by
  refine begun_foldl (fun m b => ?_) _ _
  have hrow (n : Memory) (r : Bytes × Mutation) : (n.mutate (m.store b.1).1.number r.1 r.2).begun = n.begun := rfl
  exact (begun_foldl hrow b.2.toList (m.store b.1).2).trans (begun_store m b.1)

theorem begun_endTx (m : Memory) (t : TxHandle) : (m.endTx t).2.begun = m.begun := by
  unfold endTx
  dsimp only
  split <;> rfl

end Memory

namespace Lease

/-- The numbers of the transactions begun so far. -/
def issued (s : Watched Local) (n : Nat) : Prop := n ≤ s.base.memory.begun

/-- A watched call of the memory that begins no fewer transactions. -/
theorem beside_call {α : Type} (name : CallName) (detail : Local → String) (act : Act Memory α)
    (h : ∀ m, m.begun ≤ (act.exec m).2.begun) (s : Watched Local) :
    Beside Watched.base issued s
      ((Watched.call name detail (act.on Local.memory fun m b => { b with memory := m })).exec s).2 := by
  unfold Watched.call
  rw [Act.exec_of]
  dsimp only
  split
  · exact ⟨rfl, fun _ hn => hn⟩
  · exact ⟨rfl, fun _ hn => Nat.le_trans hn (h s.base.memory)⟩

/-- The memory below the layer. -/
def inner : Backend Memory StoreHandle TxHandle := Memory.backend Memory.defaultFeatures

theorem allows_beside (lease : Nanos) : (layer inner lease).Allows (Beside Watched.base issued) where
  refl _ := ⟨rfl, fun _ hn => hn⟩
  trans _ _ _ h₁ h₂ := ⟨h₂.1.trans h₁.1, fun n hn => h₂.2 n (h₁.2 n hn)⟩
  openStore name := beside_call .openStore (fun _ => name) (inner.openStore name)
    fun m => Nat.le_of_eq (Memory.begun_store m name).symm
  locker _ _ := ⟨rfl, fun _ hn => hn⟩
  check _ _ _ := ⟨rfl, fun _ hn => hn⟩
  read store key slice tx := beside_call .read (fun s => Watched.readDetail (inner.txId tx s.memory) key slice)
    (inner.read store key slice tx) fun _ => Nat.le_refl _
  mutate store key m tx := beside_call .mutate (fun s => toString (inner.txId tx s.memory))
    (inner.mutate store key m tx) fun _ => Nat.le_refl _
  mutateMany batch tx := beside_call .mutateMany (fun s => toString (inner.txId tx s.memory))
    (inner.mutateMany batch tx) fun m => Nat.le_of_eq (Memory.begun_mutateMany m batch).symm
  beginTx o := beside_call .beginTx (fun _ => "") (inner.beginTx o) fun m => Nat.le_succ m.begun
  stamp _ _ _ := ⟨rfl, fun _ hn => hn⟩
  commit tx := beside_call .commit (fun s => toString (inner.txId tx s.memory)) (inner.commit tx)
    fun m => Nat.le_of_eq (Memory.begun_endTx m tx).symm
  rollback tx := beside_call .rollback (fun s => toString (inner.txId tx s.memory)) (inner.rollback tx)
    fun m => Nat.le_of_eq (Memory.begun_endTx m tx).symm
  close := beside_call .close (fun _ => "") inner.close fun _ => Nat.le_refl _
  sleep _ _ := ⟨rfl, fun _ hn => hn⟩
  count _ _ := ⟨rfl, fun _ hn => hn⟩

theorem ownsLockers (lease : Nanos) : (checking lease).OwnsLockers lease Watched.base
    (fun s b => { s with base := b }) TxHandle.number issued where
  locks := rfl
  get_set _ _ := rfl
  issued_set _ _ _ hn := hn
  allows := allows_beside lease
  txId _ _ := rfl
  fresh o s tx s' hexec := by
    change (Watched.call .beginTx (fun _ => "")
      ((inner.beginTx o).on Local.memory fun m b => { b with memory := m })).exec s = (.ok tx, s') at hexec
    unfold Watched.call at hexec
    rw [Act.exec_of] at hexec
    dsimp only at hexec
    split at hexec
    · cases hexec
    · cases hexec
      exact ⟨Nat.not_succ_le_self _, Nat.le_refl _⟩

/-- Rolling back both parts of a transaction is planned to fail. -/
def failing : Watched Local :=
  (Watched.new .new).plan .rollback
    [some (.backend (.temporary "unreachable" none)), some (.backend (.temporary "unreachable" none))]

/-- The lock of one transaction is refused to another, which takes it over when the lease has ended.  Then
the first one takes another lock and is rolled back, and the second one is committed. -/
def handover : List (LayerCall (Watched Local) StoreHandle TxHandle String) :=
  [.openStore "rows", .beginTx .none, .beginTx .none, .given (.joint 0) (.lock rows [1] [1] none),
    .given (.joint 1) (.lock rows [1] [1] none), .given (.joint 1) (.meanwhile (passTime short)),
    .given (.joint 1) (.lock rows [1] [1] none), .given (.joint 0) (.lock rows [1] [2] none),
    .given (.joint 0) .rollback, .given (.joint 1) .commit]

theorem orderly_handover : ∀ call ∈ handover, call.Orderly (checking short).suffix Watched.base issued := by
  have hpass (s : Watched Local) : Beside Watched.base issued s (passTime short s) := ⟨rfl, fun _ hn => hn⟩
  simp only [handover, List.forall_mem_cons]
  exact ⟨trivial, trivial, trivial, rfl, rfl, hpass, rfl, rfl, trivial, trivial, by simp⟩

/-- What becomes of the calls. -/
def handed : List (MadeLayerCall (Watched Local) StoreHandle TxHandle String) :=
  layerHistory (checking short) handover (.new failing)

end Lease

theorem releases_own_handover : (Lease.checking Lease.short).OwnsLockers Lease.short Watched.base
      (fun s b => { s with base := b }) TxHandle.number Lease.issued ∧
    Lease.failing.base.lockers = .empty ∧
    (∀ call ∈ Lease.handover, call.Orderly (Lease.checking Lease.short).suffix Watched.base Lease.issued) ∧
    ReleasesOwn (Lease.checking Lease.short).suffix Watched.base TxHandle.number Lease.handed :=
  ⟨Lease.ownsLockers _, rfl, Lease.orderly_handover,
    releases_own (Lease.ownsLockers _) rfl Lease.handover Lease.orderly_handover⟩

/-- The second lock is refused at first, and the rollback fails. -/
example : Lease.handed.map (fun m => m.outcome.toOption.isSome) =
    [true, true, true, true, false, true, true, true, false, true] := by
  decide +kernel

end RowGraph
