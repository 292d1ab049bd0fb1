import RowGraph.Proofs.JointCalls

/-!
# Expected values

A joint transaction has one expectation for each column, and a later lock on the column replaces it.  Before
the first mutation is forwarded every column is read again, and holds what the last lock on it expects;
what an earlier lock expected of it is forgotten, although that lock was granted.

* `expectations_verified`: the statement for every run over any backend whose reads find what is stored.
* `earlier_expectation_unverified`: a lock that was granted, and a mutation that goes through although
  the column never held what the lock expects.
-/

namespace RowGraph

/-! ## Reading what is held -/

/-- Reads in a transaction find what the columns hold, and neither reading nor checking locks nor sleeping
changes that. -/
structure Checking.ReadsBack {σ S T L : Type} [Timed σ] (c : Checking σ S T L) (tx : T)
    (holds : σ → S → LockTarget → Option Bytes) : Prop where
  read : ∀ store target contents,
    (c.inner.read store target.key (Checking.columnSlice target.column) tx).Ensures
      (fun s => holds s = contents) fun entries =>
        (entries.find? fun e => e.column == target.column).map Entry.value = contents store target
  check : ∀ locker owner contents,
    (c.locks.check locker owner).Ensures (fun s => holds s = contents) fun _ => True
  sleep : ∀ d s, holds (sleepFor d s) = holds s

theorem Checking.ensures_lift_holds {σ S T : Type} {holds : σ → S → LockTarget → Option Bytes} {α : Type}
    {act : Act σ α} {P : α → Prop} {contents : S → LockTarget → Option Bytes}
    (h : act.Ensures (fun s => holds s = contents) P) :
    (Noted.lift act : Act (Noted σ T) α).Ensures (fun s => holds s.base = contents) P :=
  h.on (fun _ hs => hs) fun _ _ _ ht => ht

namespace Checking

variable {σ S T L : Type} [Timed σ] {c : Checking σ S T L} {j : Joint S T L}
  {holds : σ → S → LockTarget → Option Bytes}

theorem ReadsBack.checkValue (h : c.ReadsBack j.consistent holds) (column : LockedColumn)
    (e : Option Bytes) (contents : S → LockTarget → Option Bytes) :
    (c.noted.checkValue j column e).Ensures (fun s => holds s.base = contents) fun _ =>
      ∃ store locker, j.stores.get? column.store = some (store, locker) ∧
        contents store column.target = e := by
  unfold Checking.checkValue
  cases hopened : j.stores.get? column.store with
  | none => exact Act.ensures_throw _
  | some opened =>
    obtain ⟨store, locker⟩ := opened
    have hread := ensures_lift_holds (T := T) (h.read store column.target contents)
    refine (Act.ensures_asks _).bind fun draw _ => ?_
    refine Act.Ensures.bind (Operation.run_ensures hread ?_ ?_) fun entries hentries => ?_
    · exact fun s d hs => (h.sleep d s.base).trans hs
    · exact fun s hs => hs
    · dsimp only
      rw [hentries]
      split
      · exact Act.ensures_throw _
      · rename_i hne
        exact Act.ensures_pure ⟨store, locker, rfl, not_not.mp hne⟩

/-- A verification that succeeds finds what every column is expected to hold. -/
theorem ReadsBack.verify (h : c.ReadsBack j.consistent holds) (contents : S → LockTarget → Option Bytes) :
    (c.noted.verify j).Ensures (fun s => holds s.base = contents) fun _ =>
      ∀ column e, j.expected.get? column = some e →
        ∃ store locker, j.stores.get? column.store = some (store, locker) ∧
          contents store column.target = e := by
  unfold Checking.verify
  refine Act.Ensures.bind (P := fun _ => True) ?_ fun _ _ => ?_
  · refine (Act.ensures_forM (R := fun _ => True) fun _ _ => ?_).mono fun _ _ => trivial
    exact (Act.ensures_asks _).bind fun _ _ => ensures_lift_holds (h.check _ _ contents)
  · refine (Act.ensures_forM fun x _ => h.checkValue x.1 x.2 contents).mono fun _ hall => ?_
    exact fun column e he => hall (column, e) (SortedMap.mem_toList_iff.mpr he)

theorem ReadsBack.held_of_verify (h : c.ReadsBack j.consistent holds) {s : Noted σ T}
    (hverify : ((c.noted.verify j).exec s).1 = .ok ()) {column : LockedColumn} {e : Option Bytes}
    (he : j.expected.get? column = some e) :
    ∃ store locker, j.stores.get? column.store = some (store, locker) ∧
      holds s.base store column.target = e :=
  (h.verify (holds s.base) s rfl).2 () hverify column e he

end Checking

/-! ## Expectations of a run -/

variable {σ S T L : Type}

/-- What a lock that was taken expects of a column, if it is a lock on it. -/
def Served.expectation? (m : Served σ S T L) (column : LockedColumn) : Option (Option Bytes) :=
  match m.lock? with
  | some (store, target, e) => if ⟨store.name, target⟩ = column then some e else none
  | none => none

/-- What the last lock that was taken on a column expects. -/
def lastExpectation? (column : LockedColumn) (past : List (Served σ S T L)) : Option (Option Bytes) :=
  past.reverse.findSome? fun m => m.expectation? column

/-- The request verifies everything, and mutating begins. -/
def Served.Verifies [Timed σ] (c : Checking σ S T L) (m : Served σ S T L) : Prop :=
  m.before.1.mutationsStarted = false ∧ m.after.1.mutationsStarted = true ∧
    ((c.noted.verify m.before.1).exec m.before.2).1 = .ok ()

/-- Stores that locks are asked for in are the same if they have the same name. -/
def OneStoreEach (rs : List (JointRequest σ S L)) : Prop :=
  ∀ r ∈ rs, ∀ r' ∈ rs, ∀ store key column e store' key' column' e',
    r = .lock store key column e → r' = .lock store' key' column' e' →
      store.name = store'.name → store.store = store'.store

/-- When a mutation is forwarded everything has been verified, and then every column held what a lock on
it expects that was taken before and not followed by one with another expectation. -/
def VerifiedFirst [Timed σ] (c : Checking σ S T L) (holds : σ → S → LockTarget → Option Bytes)
    (requests : List (Served σ S T L)) : Prop :=
  ∀ past m rest, requests = past ++ m :: rest → m.after.2.forwarded ≠ m.before.2.forwarded →
    ∃ v ∈ past ++ [m], v.Verifies c ∧ ∀ before l between store target e,
      past = before ++ l :: between → l.lock? = some (store, target, e) →
      (∀ x ∈ between, ∀ e', x.expectation? ⟨store.name, target⟩ = some e' → e' = e) →
      holds v.before.2.base store.store target = e

section

variable {past : List (Served σ S T L)} {m : Served σ S T L} {p : Joint S T L × Noted σ T}

theorem lastExpectation?_append (column : LockedColumn) (past : List (Served σ S T L))
    (m : Served σ S T L) : lastExpectation? column (past ++ [m]) =
      (m.expectation? column).or (lastExpectation? column past) := by
  unfold lastExpectation?
  rw [List.reverse_append, List.reverse_singleton, List.singleton_append, List.findSome?_cons]
  cases m.expectation? column <;> rfl

theorem expectation?_of_lock? {store : CheckedStore S L} {target : LockTarget} {e : Option Bytes}
    (h : m.lock? = some (store, target, e)) :
    m.expectation? ⟨store.name, target⟩ = some e := by
  unfold Served.expectation?
  rw [h]
  exact if_pos rfl

/-- The last expectation is that of a lock which no other expectation follows. -/
theorem lastExpectation?_eq {before between : List (Served σ S T L)} {column : LockedColumn}
    {e : Option Bytes} (h : m.expectation? column = some e)
    (hbetween : ∀ x ∈ between, ∀ e', x.expectation? column = some e' → e' = e) :
    lastExpectation? column (before ++ m :: between) = some e := by
  unfold lastExpectation?
  rw [List.reverse_append, List.reverse_cons, List.findSome?_append, List.findSome?_append]
  cases hlater : between.reverse.findSome? fun x => x.expectation? column with
  | some e' =>
    obtain ⟨x, hx, hxe⟩ := List.exists_of_findSome?_eq_some hlater
    rw [hbetween x (List.mem_reverse.mp hx) e' hxe]
    rfl
  | none => simp [h]

/-! ## What every request keeps -/

/-- The transaction expects what the locks expect that were taken, of the stores that they were taken in,
and once mutating has begun all this was verified. -/
structure Expecting [Timed σ] (c : Checking σ S T L) (consistent : T) (past : List (Served σ S T L))
    (p : Joint S T L × Noted σ T) : Prop where
  reader : p.1.consistent = consistent
  expected : ∀ column, p.1.expected.get? column = lastExpectation? column past
  stores : ∀ name opened, p.1.stores.get? name = some opened →
    ∃ l ∈ past, ∃ store target e, l.lock? = some (store, target, e) ∧ store.name = name ∧
      opened.1 = store.store
  verified : p.1.mutationsStarted = true → ∃ v ∈ past, v.Verifies c ∧
    v.before.1.consistent = consistent ∧ p.1.expected = v.before.1.expected ∧
    p.1.stores = v.before.1.stores

theorem request_of_lock? {store : CheckedStore S L} {target : LockTarget} {e : Option Bytes}
    (h : m.lock? = some (store, target, e)) : m.request = .lock store target.key target.column e := by
  unfold Served.lock? at h
  split at h
  · rename_i hrequest _
    cases h
    exact hrequest
  · cases h

variable [Timed σ] {c : Checking σ S T L} {consistent : T}

theorem expecting_new (c : Checking σ S T L) (o : TxOptions) (inconsistent consistent : T) (s : σ) :
    Expecting c consistent [] (.new o inconsistent consistent, ⟨s, []⟩) where
  reader := rfl
  expected _ := rfl
  stores _ _ h := by cases h
  verified h := by cases h

namespace Expecting

/-- A request that takes no lock. -/
theorem step_of_unlocked (h : Expecting c consistent past m.before) (hlock : m.lock? = none)
    (hconsistent : m.after.1.consistent = m.before.1.consistent)
    (hexpected : m.after.1.expected = m.before.1.expected)
    (hstores : m.after.1.stores = m.before.1.stores)
    (hverified : m.after.1.mutationsStarted = true →
      m.before.1.mutationsStarted = true ∨ m.Verifies c) :
    Expecting c consistent (past ++ [m]) m.after where
  reader := hconsistent.trans h.reader
  expected column := by
    have hnone : m.expectation? column = none := by
      unfold Served.expectation?
      rw [hlock]
    rw [hexpected, h.expected, lastExpectation?_append, hnone]
    rfl
  stores name opened hopened := by
    rw [hstores] at hopened
    obtain ⟨l, hl, hrest⟩ := h.stores name opened hopened
    exact ⟨l, List.mem_append_left _ hl, hrest⟩
  verified hstarted := by
    rw [hexpected, hstores]
    obtain hbefore | hm := hverified hstarted
    · obtain ⟨v, hv, hrest⟩ := h.verified hbefore
      exact ⟨v, List.mem_append_left _ hv, hrest⟩
    · exact ⟨m, by simp, hm, h.reader, rfl, rfl⟩

/-- A lock that is taken. -/
theorem step_of_locked (h : Expecting c consistent past m.before) {store : CheckedStore S L}
    {target : LockTarget} {e : Option Bytes} (hlock : m.lock? = some (store, target, e))
    (hstarted : m.before.1.mutationsStarted = false)
    (hjoint : m.after.1 = ({ m.before.1 with lockAttempted := true } : Joint S T L).expect store.name
      (store.store, store.locker) target e) :
    Expecting c consistent (past ++ [m]) m.after where
  reader := by
    rw [hjoint]
    exact h.reader
  expected column := by
    rw [lastExpectation?_append, ← h.expected]
    unfold Served.expectation?
    rw [hlock, hjoint]
    unfold Joint.expect
    dsimp only
    rw [SortedMap.get?_put]
    by_cases hcolumn : column = ⟨store.name, target⟩
    · rw [if_pos hcolumn, if_pos hcolumn.symm]
      rfl
    · rw [if_neg hcolumn, if_neg (Ne.symm hcolumn)]
      rfl
  stores name opened hopened := by
    rw [hjoint] at hopened
    unfold Joint.expect at hopened
    dsimp only at hopened
    have hpast : m.before.1.stores.get? name = some opened →
        ∃ l ∈ past ++ [m], ∃ store target e, l.lock? = some (store, target, e) ∧ store.name = name ∧
          opened.1 = store.store := by
      intro hold
      obtain ⟨l, hl, hrest⟩ := h.stores name opened hold
      exact ⟨l, List.mem_append_left _ hl, hrest⟩
    split at hopened
    · exact hpast hopened
    · rw [SortedMap.get?_put] at hopened
      split at hopened
      · rename_i hname
        cases hopened
        exact ⟨m, by simp, store, target, e, hlock, hname.symm, rfl⟩
      · exact hpast hopened
  verified h := by
    rw [hjoint] at h
    exact absurd (hstarted.symm.trans h) (by simp)

theorem step (h : Expecting c consistent past m.before) (heffect : Effect c m) :
    Expecting c consistent (past ++ [m]) m.after := by
  cases heffect with
  | kept hjoint hforwarded hasks hlock =>
    obtain ⟨state, hjoint⟩ := hjoint
    exact h.step_of_unlocked hlock (by rw [hjoint]) (by rw [hjoint]) (by rw [hjoint])
      fun hstarted => .inl (by rwa [hjoint] at hstarted)
  | refused hjoint hforwarded hasks hlock =>
    exact h.step_of_unlocked hlock (by rw [hjoint]) (by rw [hjoint]) (by rw [hjoint])
      fun hstarted => .inl (by rwa [hjoint] at hstarted)
  | locked hjoint hforwarded hasks hlock => exact h.step_of_locked hlock hasks.2.2 hjoint
  | checked hchecked hactive hverified hjoint hforwarded hasks hlock =>
    refine h.step_of_unlocked hlock (by rw [hjoint]) (by rw [hjoint]) (by rw [hjoint]) fun hstarted => ?_
    cases hbefore : m.before.1.mutationsStarted with
    | true => exact .inl rfl
    | false =>
      rw [hbefore] at hverified
      exact .inr ⟨hbefore, hstarted, hverified.resolve_left (by simp)⟩

end Expecting

/-- Every expectation is verified before the first mutation, of the locks whose column was not locked
again with another expectation: over every backend whose reads find what is stored, for all requests
to one joint transaction in any order and whatever others do in between. -/
theorem expectations_verified [Metered σ] {holds : σ → S → LockTarget → Option Bytes}
    (hreads : c.ReadsBack consistent holds) (o : TxOptions) (inconsistent : T) (s : σ)
    (rs : List (JointRequest σ S L)) (hone : OneStoreEach rs) :
    VerifiedFirst c holds (serve c rs (.new o inconsistent consistent, ⟨s, []⟩)) := by
  intro past m rest hsplit hforwards
  have hmem : ∀ l ∈ past ++ [m], l.request ∈ rs := by
    intro l hl
    refine request_mem (c := c) (p := (.new o inconsistent consistent, ⟨s, []⟩)) ?_
    rw [hsplit, List.append_cons]
    exact List.mem_append_left _ hl
  obtain ⟨rs₁, r, rs₂, hpast, hm, -⟩ := exists_of_serve hsplit
  have hexpecting : Expecting c consistent past m.before := by
    rw [hpast, hm]
    exact serve_invariant (expecting_new c o inconsistent consistent s)
      (fun _ q r h => h.step (effect_served c q r)) rs₁
  have heffect : Effect c m := hm ▸ effect_served c _ r
  obtain ⟨hstarted, hlock⟩ : m.after.1.mutationsStarted = true ∧ m.lock? = none := by
    cases heffect with
    | kept hjoint hforwarded hasks hlock => exact absurd hforwarded hforwards
    | refused hjoint hforwarded hasks hlock => exact absurd hforwarded hforwards
    | locked hjoint hforwarded hasks hlock => exact absurd hforwarded hforwards
    | checked hchecked hactive hverified hjoint hforwarded hasks hlock =>
      exact ⟨by rw [hjoint], hlock⟩
  have hafter := hexpecting.step heffect
  obtain ⟨v, hv, hverifies, hreader, hexpected, hstores⟩ := hafter.verified hstarted
  refine ⟨v, hv, hverifies, fun before l between store target e hl hlocked hlater => ?_⟩
  have hlast : v.before.1.expected.get? ⟨store.name, target⟩ = some e := by
    rw [← hexpected, hafter.expected, lastExpectation?_append, hl,
      lastExpectation?_eq (expectation?_of_lock? hlocked) hlater]
    unfold Served.expectation?
    rw [hlock]
    rfl
  rw [← hreader] at hreads
  obtain ⟨found, locker, hfound, hheld⟩ := hreads.held_of_verify hverifies.2.2 hlast
  rw [← hstores] at hfound
  obtain ⟨l', hl', store', target', e', hlocked', hname, hsame⟩ := hafter.stores _ _ hfound
  rw [hone _ (hmem l (by rw [hl]; simp)) _ (hmem l' hl') _ _ _ _ _ _ _ _ (request_of_lock? hlocked)
    (request_of_lock? hlocked') hname.symm, ← hsame]
  exact hheld

end

/-! ## Over memory -/

theorem Checking.readsBack_seen (w : LocalSetup) (tx : TxHandle) :
    w.checking.ReadsBack tx seen where
  read store target contents := by
    rintro b rfl
    refine ⟨rfl, fun entries hentries => ?_⟩
    have hread : (b.memory.table store.number).read target.key (columnSlice target.column) = entries :=
      Except.ok.inj hentries
    rw [← hread]
    exact Row.find_columnSlice _ _
  check locker owner contents b hb := ⟨hb, fun _ _ => trivial⟩
  sleep _ _ := rfl

namespace Relock

/-- Leases of a microsecond. -/
def setup : LocalSetup := ⟨Memory.defaultFeatures, 1000, .defaults⟩

def rows : CheckedStore StoreHandle String := ⟨"rows", ⟨0, "rows"⟩, "rows_lock", 0⟩

/-- A column holds seven. -/
def base : Local := { Local.new with memory := Memory.new.mutate 0 [1] ⟨[⟨[1], [7]⟩], []⟩ }

/-- The column is locked twice, first with a wrong expectation and then with the right one. -/
def requests : List (JointRequest Local StoreHandle String) :=
  [.lock rows [1] [1] (some [5]), .lock rows [1] [1] (some [7]), .mutate rows [1] ⟨[⟨[1], [8]⟩], []⟩]

/-- What becomes of the requests. -/
def served : List (Served Local StoreHandle TxHandle String) :=
  serve setup.checking requests (.new .none ⟨1⟩ ⟨2⟩, ⟨base, []⟩)

theorem oneStoreEach : OneStoreEach requests := by
  intro r hr r' hr' store key column e store' key' column' e' h h' _
  subst h h'
  simp only [requests, List.mem_cons, JointRequest.lock.injEq, List.not_mem_nil, or_false, reduceCtorEq] at hr hr'
  rcases hr with ⟨rfl, -⟩ | ⟨rfl, -⟩ <;> rcases hr' with ⟨rfl, -⟩ | ⟨rfl, -⟩ <;> rfl

end Relock

theorem expectations_verified_relock :
    Relock.setup.checking.ReadsBack ⟨2⟩ Checking.seen ∧ OneStoreEach Relock.requests ∧
      VerifiedFirst Relock.setup.checking Checking.seen Relock.served :=
  ⟨Checking.readsBack_seen .., Relock.oneStoreEach,
    expectations_verified (Checking.readsBack_seen ..) .none ⟨1⟩ Relock.base Relock.requests
      Relock.oneStoreEach⟩

/-- A lock is granted and a mutation goes through, and nothing was found of what the lock expects: not
every granted lock is verified before the first mutation. -/
theorem earlier_expectation_unverified : OneStoreEach Relock.requests ∧
    ¬ ∀ past m rest, Relock.served = past ++ m :: rest →
      m.after.2.forwarded ≠ m.before.2.forwarded →
      ∃ v ∈ past ++ [m], v.Verifies Relock.setup.checking ∧ ∀ l ∈ past, ∀ store target e,
        l.lock? = some (store, target, e) →
        Checking.seen v.before.2.base store.store target = e := by
  refine ⟨Relock.oneStoreEach, fun hall => ?_⟩
  have hforwards : (Relock.served[2]).after.2.forwarded ≠ (Relock.served[2]).before.2.forwarded := by
    decide +kernel
  have hseen : ∀ v ∈ Relock.served,
      Checking.seen v.before.2.base Relock.rows.store ⟨[1], [1]⟩ = some [7] := by decide +kernel
  obtain ⟨v, hv, -, hheld⟩ := hall [Relock.served[0], Relock.served[1]] Relock.served[2] [] rfl hforwards
  have hfive := hheld Relock.served[0] List.mem_cons_self Relock.rows ⟨[1], [1]⟩ (some [5]) rfl
  rw [hseen v hv] at hfive
  cases hfive

end RowGraph
