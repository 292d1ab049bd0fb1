import RowGraph.Proofs.JointRuns

/-!
# No update is lost

`Kept` ties the state of the layers to the calls made so far: which columns each transaction has locked
and what it expects of them, whether it has begun to mutate or ended, and that from its first mutation on
the columns it has locked hold what its last mutation left.  Every call keeps it (`Kept.step`), as long as
no lease ends and every mutation touches only columns that its transaction has locked.

* `no_lost_update`: so a transaction finds in the columns it has locked what it expects, or what it left.
-/

namespace RowGraph

/-- Was a mutation of the transaction forwarded? -/
def MadeCall.writes (m : MadeCall) (t : Nat) : Bool := (m.deed t).isWrite

/-- What a transaction expects of a column by the last lock it took on it, if it took one. -/
def expectation? (t : Nat) (c : LockedColumn) (past : List MadeCall) : Option (Option Bytes) :=
  past.reverse.findSome? fun m => (m.deed t).expectation? c

/-- The last call that forwarded a mutation of the transaction. -/
def lastWrite? (t : Nat) (past : List MadeCall) : Option MadeCall :=
  past.reverse.find? fun m => m.writes t

/-- Every mutation touches only columns that its transaction has locked before. -/
def TouchesLocked (calls : List MadeCall) : Prop :=
  ∀ past m rest, calls = past ++ m :: rest → ∀ t, ∀ c ∈ (m.deed t).columns,
    (expectation? t c past).isSome

/-- A transaction finds in the columns it has locked what it expects, or what it left. -/
structure NoLostUpdate (calls : List MadeCall) : Prop where
  /-- Before its first mutation a transaction finds what it expects. -/
  first : ∀ past m rest t, calls = past ++ m :: rest → m.writes t = true →
    (∀ x ∈ past, x.writes t = false) →
    ∀ c e, expectation? t c past = some e → m.before.base.memory.holds c = e
  /-- Before any other mutation it finds what was there after the previous one. -/
  again : ∀ past x between m rest t, calls = past ++ x :: (between ++ m :: rest) →
    x.writes t = true → m.writes t = true → (∀ y ∈ between, y.writes t = false) →
    ∀ c, (expectation? t c (past ++ x :: between)).isSome →
      m.before.base.memory.holds c = x.after.base.memory.holds c
  /-- Until it ends no other transaction touches what it has locked. -/
  alone : ∀ past x between m rest t u, calls = past ++ x :: (between ++ m :: rest) →
    x.writes t = true → (∀ y ∈ between, y.deed t ≠ .ended) → u ≠ t →
    ∀ c, (expectation? t c (past ++ x :: between)).isSome → c ∉ (m.deed u).columns

variable {w : LocalSetup} {s s₁ : LocalLayers} {past : List MadeCall} {m : MadeCall} {t : Nat}
  {c : LockedColumn}

theorem expectation?_append (t : Nat) (c : LockedColumn) (past : List MadeCall) (m : MadeCall) :
    expectation? t c (past ++ [m]) = ((m.deed t).expectation? c).or (expectation? t c past) := by
  unfold expectation?
  rw [List.reverse_append, List.reverse_singleton, List.singleton_append, List.findSome?_cons]
  cases (m.deed t).expectation? c <;> rfl

theorem lastWrite?_append (t : Nat) (past : List MadeCall) (m : MadeCall) :
    lastWrite? t (past ++ [m]) = if m.writes t = true then some m else lastWrite? t past := by
  unfold lastWrite?
  rw [List.reverse_append, List.reverse_singleton, List.singleton_append, List.find?_cons]
  cases m.writes t <;> rfl

theorem lastWrite?_eq_none (h : ∀ x ∈ past, x.writes t = false) : lastWrite? t past = none := by
  unfold lastWrite?
  rw [List.find?_eq_none]
  intro x hx
  rw [h x (List.mem_reverse.mp hx)]
  simp

/-! ## What every call keeps -/

/-- The state of the layers agrees with the calls made so far. -/
structure Kept (w : LocalSetup) (past : List MadeCall) (s : LocalLayers) : Prop where
  sound : w.Sound s
  unknown : ∀ t, s.joints.get? t = none → ∀ m ∈ past, m.deed t = .nothing
  expected : ∀ t j c, s.joints.get? t = some j → j.expected.get? c = expectation? t c past
  started : ∀ t j m, s.joints.get? t = some j → m ∈ past → m.writes t = true →
    j.mutationsStarted = true
  active : ∀ t j, s.joints.get? t = some j → (j.state = .active ↔ ∀ m ∈ past, m.deed t ≠ .ended)
  /-- Once mutating has begun, locked columns hold what was expected or what the last mutation left. -/
  values : ∀ t j c e, s.joints.get? t = some j → j.state = .active → j.mutationsStarted = true →
    j.expected.get? c = some e → s.base.memory.holds c =
      ((lastWrite? t past).map fun m => m.after.base.memory.holds c).getD e

theorem Kept.idle (h : Kept w past s) (hidle : Idle s s₁) (hsound : w.Sound s₁) : Kept w past s₁ where
  sound := hsound
  unknown t ht := h.unknown t (hidle.joints ▸ ht)
  expected t j c hj := h.expected t j c (hidle.joints ▸ hj)
  started t j m hj := h.started t j m (hidle.joints ▸ hj)
  active t j hj := h.active t j (hidle.joints ▸ hj)
  values t j c e hj hactive hstarted he := by
    rw [hidle.holds]
    exact h.values t j c e (hidle.joints ▸ hj) hactive hstarted he

theorem writes_of_nothing (h : m.deed t = .nothing) : m.writes t = false := by
  unfold MadeCall.writes
  rw [h]
  rfl

theorem deed_of_writes (h : m.writes t = true) : m.deed t ≠ .nothing ∧ m.deed t ≠ .ended := by
  unfold MadeCall.writes at h
  cases hd : m.deed t with
  | wrote columns => simp
  | nothing | locked | ended =>
    rw [hd] at h
    cases h

theorem writes_of_mem_columns (h : c ∈ (m.deed t).columns) : m.writes t = true := by
  unfold MadeCall.writes
  cases hd : m.deed t with
  | wrote columns => rfl
  | nothing | locked | ended =>
    rw [hd] at h
    cases h

/-- A call that has done nothing keeps everything. -/
theorem Kept.append (h : Kept w past s) (hm : ∀ t, m.deed t = .nothing) : Kept w (past ++ [m]) s where
  sound := h.sound
  unknown t ht := List.forall_mem_append.mpr ⟨h.unknown t ht, by simpa using hm t⟩
  expected t j c hj := by
    rw [expectation?_append, hm t, h.expected t j c hj]
    rfl
  started t j x hj hx hwrites := by
    rcases List.mem_append.mp hx with hx | hx
    · exact h.started t j x hj hx hwrites
    · rw [List.mem_singleton.mp hx, writes_of_nothing (hm t)] at hwrites
      cases hwrites
  active t j hj := by
    rw [h.active t j hj, List.forall_mem_append]
    simp [hm t]
  values t j c e hj hactive hstarted he := by
    rw [lastWrite?_append, writes_of_nothing (hm t)]
    exact h.values t j c e hj hactive hstarted he

theorem expectation?_eq_none (h : ∀ m ∈ past, m.deed t = .nothing) : expectation? t c past = none := by
  unfold expectation?
  rw [List.findSome?_eq_none_iff]
  intro m hm
  rw [h m (List.mem_reverse.mp hm)]
  rfl

theorem Kept.begun {s' : LocalLayers} {j : Joint StoreHandle TxHandle String} (h : Kept w past s)
    (hjoints : s'.joints = s.joints.put s.begun j)
    (hholds : ∀ c, s'.base.memory.holds c = s.base.memory.holds c) (hactive : j.state = .active)
    (hexpected : j.expected = .empty) (hsound : w.Sound s') : Kept w past s' := by
  have hget (t : Nat) : s'.joints.get? t = if t = s.begun then some j else s.joints.get? t := by
    rw [hjoints, SortedMap.get?_put]
  have hnew : ∀ m ∈ past, m.deed s.begun = .nothing := by
    refine h.unknown s.begun ?_
    cases hj : s.joints.get? s.begun with
    | none => rfl
    | some k => exact absurd (h.sound.begun _ k hj) (Nat.lt_irrefl _)
  refine ⟨hsound, fun t ht => ?_, fun t k c hk => ?_, fun t k m hk hm hwrites => ?_, fun t k hk => ?_,
    fun t k c e hk hka hks he => ?_⟩
  · rw [hget] at ht
    split at ht
    · cases ht
    · exact h.unknown t ht
  · rw [hget] at hk
    split at hk
    · rename_i ht
      cases hk
      rw [hexpected, ht, expectation?_eq_none hnew]
      rfl
    · exact h.expected t k c hk
  · rw [hget] at hk
    split at hk
    · rename_i ht
      rw [ht, writes_of_nothing (hnew m hm)] at hwrites
      cases hwrites
    · exact h.started t k m hk hm hwrites
  · rw [hget] at hk
    split at hk
    · rename_i ht
      cases hk
      refine iff_of_true hactive fun m hm => ?_
      rw [ht, hnew m hm]
      simp
    · exact h.active t k hk
  · rw [hget] at hk
    split at hk
    · cases hk
      rw [hexpected] at he
      cases he
    · rw [hholds]
      exact h.values t k c e hk hka hks he

/-! ## Turns -/

section Turns

variable {j j' k : Joint StoreHandle TxHandle String} {b' : Local} {u : Nat}

/-- What another active transaction has locked is not touched. -/
theorem Kept.untouched {b : Local} (h : Kept w past s) (hj : s.joints.get? t = some j)
    (hturn : w.Turn (m.deed t) j b j' b')
    (hown : ∀ c ∈ (m.deed t).columns, (expectation? t c past).isSome) (hk : s.joints.get? u = some k)
    (hne : u ≠ t) (hactive : k.state = .active) (hc : (k.expected.get? c).isSome) :
    c ∉ (m.deed t).columns := by
  intro hm
  have hwrites : m.writes t = true := writes_of_mem_columns hm
  have hlocked : (j.expected.get? c).isSome := by
    rw [h.expected t j c hj]
    exact hown c hm
  exact hne (h.sound.alone hj hk (hturn.writing hwrites).1 hactive hlocked hc)

/-- After its own turn a transaction finds in its columns what was expected or what it has left. -/
theorem Kept.values_turn (h : Kept w past s) (hj : s.joints.get? t = some j)
    (hturn : w.Turn (m.deed t) j s.base j' b') (hbase : m.after.base = b') {e : Option Bytes}
    (hactive : j'.state = .active) (hstarted : j'.mutationsStarted = true)
    (he : j'.expected.get? c = some e) : b'.memory.holds c =
      ((lastWrite? t (past ++ [m])).map fun m => m.after.base.memory.holds c).getD e := by
  rw [lastWrite?_append]
  cases hwrites : m.writes t with
  | true => rw [if_pos rfl, Option.map_some, Option.getD_some, hbase]
  | false =>
    rw [if_neg (by simp)]
    have hexpected : j.expected.get? c = some e := by
      rw [← he, hturn.expected]
      cases hd : m.deed t with
      | locked c' e' =>
        rw [(hturn.locking c' e' hd).2] at hstarted
        cases hstarted
      | nothing | wrote | ended => rfl
    have hcolumns : c ∉ (m.deed t).columns := by
      cases hd : m.deed t with
      | wrote columns =>
        unfold MadeCall.writes at hwrites
        rw [hd] at hwrites
        cases hwrites
      | nothing | locked | ended => exact List.not_mem_nil
    rw [hturn.holds c hcolumns]
    cases hs : j.mutationsStarted with
    | true => exact h.values t j c e hj (hturn.active.mp hactive).1 hs hexpected
    | false =>
      -- The turn has checked everything, and nothing was written before.
      have hseen := (hturn.starting hstarted).resolve_left (by simp [hs])
      have hnone : lastWrite? t past = none := by
        refine lastWrite?_eq_none fun x hx => ?_
        cases hx' : x.writes t with
        | false => rfl
        | true =>
          rw [h.started t j x hj hx hx'] at hs
          cases hs
      rw [hnone, hseen c e hexpected]
      rfl

theorem Kept.turn (h : Kept w past s) (hj : s.joints.get? t = some j)
    (hturn : w.Turn (m.deed t) j s.base j' b') (hother : ∀ u, u ≠ t → m.deed u = .nothing)
    (hafter : m.after = { s with base := b', joints := s.joints.put t j' })
    (hown : ∀ c ∈ (m.deed t).columns, (expectation? t c past).isSome) :
    Kept w (past ++ [m]) m.after := by
  have hget (u : Nat) : m.after.joints.get? u = if u = t then some j' else s.joints.get? u := by
    rw [hafter, SortedMap.get?_put]
  have hbase : m.after.base = b' := by rw [hafter]
  refine ⟨hafter ▸ h.sound.turn hj hturn, fun u hu => ?_, fun u k c hk => ?_,
    fun u k x hk hx hwrites => ?_, fun u k hk => ?_, fun u k c e hk hactive hstarted he => ?_⟩
  · rw [hget] at hu
    split at hu
    · cases hu
    · rename_i hne
      exact List.forall_mem_append.mpr ⟨h.unknown u hu, by simpa using hother u hne⟩
  · rw [hget] at hk
    rw [expectation?_append]
    split at hk
    · rename_i hu
      cases hk
      rw [hturn.expected, h.expected t j c hj, hu]
    · rename_i hne
      rw [hother u hne, h.expected u k c hk]
      rfl
  · rw [hget] at hk
    split at hk
    · rename_i hu
      cases hk
      subst hu
      rcases List.mem_append.mp hx with hx | hx
      · exact hturn.keepsOn (h.started u j x hj hx hwrites)
      · rw [List.mem_singleton.mp hx] at hwrites
        exact (hturn.writing hwrites).2
    · rename_i hne
      rcases List.mem_append.mp hx with hx | hx
      · exact h.started u k x hk hx hwrites
      · rw [List.mem_singleton.mp hx, writes_of_nothing (hother u hne)] at hwrites
        cases hwrites
  · rw [hget] at hk
    rw [List.forall_mem_append]
    split at hk
    · rename_i hu
      cases hk
      rw [hturn.active, h.active t j hj, hu]
      simp
    · rename_i hne
      rw [h.active u k hk]
      simp [hother u hne]
  · rw [hget] at hk
    rw [hbase]
    split at hk
    · rename_i hu
      cases hk
      subst hu
      exact h.values_turn hj hturn hbase hactive hstarted he
    · rename_i hne
      have hc : (k.expected.get? c).isSome := he ▸ rfl
      rw [lastWrite?_append, writes_of_nothing (hother u hne), if_neg (by simp),
        hturn.holds c (h.untouched hj hturn hown hk hne hactive hc)]
      exact h.values u k c e hk hactive hstarted he

end Turns

/-! ## Runs -/

/-- Every call keeps it. -/
theorem Kept.step (h : Kept w past s) (hm : Passage w s m.deed m.after)
    (hown : ∀ t, ∀ c ∈ (m.deed t).columns, (expectation? t c past).isSome) :
    Kept w (past ++ [m]) m.after := by
  generalize hs' : m.after = s' at hm
  cases hm with
  | idle hidle hsound hdeed => exact (h.idle hidle hsound).append hdeed
  | begun hjoints hholds hactive hexpected hsound hdeed =>
    exact (h.begun hjoints hholds hactive hexpected hsound).append hdeed
  | turn hidle hsound hj hturn hdeed =>
    exact hs' ▸ (h.idle hidle hsound).turn hj hturn hdeed hs' (hown _)

theorem kept_new {base : Local} (h : base.memory.Sound) : Kept w [] (.new base) where
  sound := by refine ⟨h, ?_, ?_, ?_, ?_, ?_⟩ <;> simp [Checked.new]
  unknown _ _ := by simp
  expected t j c hj := by cases hj
  started t j m hj := by cases hj
  active t j hj := by cases hj
  values t j c e hj := by cases hj

/-- Before each call of a run the state agrees with the calls made before it. -/
theorem Kept.run {before : List MadeCall} {calls : List JointCall} (h : Kept w before s)
    (hlast : ∀ m ∈ history w calls s, m.before.base.lockers.Lasting (now m.before.base))
    (hown : ∀ past m rest, history w calls s = past ++ m :: rest →
      ∀ t, ∀ c ∈ (m.deed t).columns, (expectation? t c (before ++ past)).isSome)
    {rest : List MadeCall} (hsplit : history w calls s = past ++ m :: rest) :
    Kept w (before ++ past) m.before ∧ Passage w m.before m.deed m.after := by
  induction calls generalizing before s past with
  | nil => cases past <;> cases hsplit
  | cons call calls ih =>
    have hpassage := passage h.sound (hlast _ List.mem_cons_self) call
    cases past with
    | nil =>
      obtain ⟨rfl, -⟩ := List.cons.inj hsplit
      rw [List.append_nil]
      exact ⟨h, hpassage⟩
    | cons x past =>
      obtain ⟨hx, htail⟩ := List.cons.inj hsplit
      subst hx
      have hstep := h.step hpassage (by simpa using hown [] _ _ rfl)
      have hrest := ih hstep (fun m hm => hlast m (List.mem_cons_of_mem _ hm))
        (fun p m rest hp t c hc => by
          rw [List.append_assoc]
          exact hown (_ :: p) m rest (congrArg _ hp) t c hc) htail
      rwa [List.append_assoc] at hrest

/-- A mutation is forwarded in a turn of its transaction. -/
theorem turn_of_writes (h : Passage w s m.deed m.after) (hwrites : m.writes t = true) :
    ∃ s₁ j j' b', Idle s s₁ ∧ s₁.joints.get? t = some j ∧ w.Turn (m.deed t) j s₁.base j' b' := by
  generalize m.after = s' at h
  have hne := (deed_of_writes hwrites).1
  cases h with
  | idle _ _ hdeed => exact absurd (hdeed t) hne
  | begun _ _ _ _ _ hdeed => exact absurd (hdeed t) hne
  | @turn s₁ u j j' b' hidle _ hj hturn hdeed =>
    obtain rfl : t = u := Decidable.byContradiction fun hu => hne (hdeed t hu)
    exact ⟨s₁, j, j', b', hidle, hj, hturn⟩

/-- Who mutates has not ended before. -/
theorem not_ended_before (h : Kept w past m.before ∧ Passage w m.before m.deed m.after)
    (hwrites : m.writes t = true) : ∀ x ∈ past, x.deed t ≠ .ended := by
  obtain ⟨s₁, j, j', b', hidle, hj, hturn⟩ := turn_of_writes h.2 hwrites
  rw [hidle.joints] at hj
  exact (h.1.active t j hj).mp (hturn.writing hwrites).1

theorem lastWrite?_eq_some {x : MadeCall} {between : List MadeCall} (hx : x.writes t = true)
    (hbetween : ∀ y ∈ between, y.writes t = false) : lastWrite? t (past ++ x :: between) = some x := by
  unfold lastWrite?
  rw [List.reverse_append, List.reverse_cons, List.append_assoc, List.find?_append,
    show between.reverse.find? (fun m => m.writes t) = none from lastWrite?_eq_none hbetween]
  simp [hx]

/-- No update is lost: whatever calls are made in whatever order by any number of transactions, as long
as no lease of a lock ends before the lock is released and every mutation touches only columns that its
transaction has locked in that store. -/
theorem no_lost_update (w : LocalSetup) (base : Local) (calls : List JointCall)
    (hmemory : base.memory.Sound)
    (hlast : ∀ m ∈ history w calls (.new base), m.before.base.lockers.Lasting (now m.before.base))
    (hown : TouchesLocked (history w calls (.new base))) :
    NoLostUpdate (history w calls (.new base)) := by
  have hkept {past : List MadeCall} {m : MadeCall} {rest : List MadeCall}
      (hsplit : history w calls (.new base) = past ++ m :: rest) :
      Kept w past m.before ∧ Passage w m.before m.deed m.after :=
    (kept_new hmemory).run hlast hown hsplit
  refine ⟨fun past m rest t hsplit hwrites hpast c e he => ?_,
    fun past x between m rest t hsplit hx hwrites hbetween c hc => ?_,
    fun past x between m rest t u hsplit hx hbetween hne c hc hm => ?_⟩
  · obtain ⟨hk, hpassage⟩ := hkept hsplit
    obtain ⟨s₁, j, j', b', hidle, hj, hturn⟩ := turn_of_writes hpassage hwrites
    rw [hidle.joints] at hj
    obtain ⟨hactive, hstarted⟩ := hturn.writing hwrites
    have he : j.expected.get? c = some e := (hk.expected t j c hj).trans he
    obtain hs | hseen := hturn.starting hstarted
    · rw [hk.values t j c e hj hactive hs he, lastWrite?_eq_none hpast]
      rfl
    · rw [← hidle.holds, hseen c e he]
  · have hsplit' : history w calls (.new base) = (past ++ x :: between) ++ m :: rest := by
      rw [hsplit, List.append_assoc, List.cons_append]
    obtain ⟨hk, hpassage⟩ := hkept hsplit'
    obtain ⟨s₁, j, j', b', hidle, hj, hturn⟩ := turn_of_writes hpassage hwrites
    rw [hidle.joints] at hj
    rw [← hk.expected t j c hj] at hc
    obtain ⟨e, he⟩ := Option.isSome_iff_exists.mp hc
    have hstarted := hk.started t j x hj (by simp) hx
    rw [hk.values t j c e hj (hturn.writing hwrites).1 hstarted he, lastWrite?_eq_some hx hbetween]
    rfl
  · have hsplit' : history w calls (.new base) = (past ++ x :: between) ++ m :: rest := by
      rw [hsplit, List.append_assoc, List.cons_append]
    obtain ⟨hk, hpassage⟩ := hkept hsplit'
    have hwrites : m.writes u = true := writes_of_mem_columns hm
    obtain ⟨s₁, j, j', b', hidle, hj, hturn⟩ := turn_of_writes hpassage hwrites
    rw [hidle.joints] at hj
    cases hl : m.before.joints.get? t with
    | none => exact (deed_of_writes hx).1 (hk.unknown t hl x (by simp))
    | some l =>
      have hactive : l.state = .active := by
        rw [hk.active t l hl, List.forall_mem_append, List.forall_mem_cons]
        exact ⟨not_ended_before (hkept hsplit) hx, (deed_of_writes hx).2, hbetween⟩
      rw [← hk.expected t l c hl] at hc
      exact hk.untouched hj hturn (hown _ _ _ hsplit' u) hl hne.symm hactive hc hm

/-! ## A run -/

theorem touchesLocked_iff (calls : List MadeCall) : TouchesLocked calls ↔
    ∀ k (hk : k < calls.length), ∀ t ∈ (calls[k].call.tx?).toList, ∀ c ∈ (calls[k].deed t).columns,
      (expectation? t c (calls.take k)).isSome := by
  constructor
  · intro h k hk t _ c hc
    refine h (calls.take k) calls[k] (calls.drop (k + 1)) ?_ t c hc
    rw [← List.drop_eq_getElem_cons hk, List.take_append_drop]
  · rintro h past m rest rfl t c hc
    have hk := h past.length (by simp) t
    rw [List.getElem_append_right (Nat.le_refl _), List.take_left] at hk
    simp only [Nat.sub_self, List.getElem_cons_zero] at hk
    refine hk ?_ c hc
    refine Option.mem_toList.mpr (Decidable.byContradiction fun htx => ?_)
    unfold MadeCall.deed at hc
    rw [if_neg htx] at hc
    cases hc

instance (calls : List MadeCall) : Decidable (TouchesLocked calls) :=
  decidable_of_iff _ (touchesLocked_iff calls).symm

namespace Contest

/-- Leases of a microsecond. -/
def setup : LocalSetup := ⟨Memory.defaultFeatures, 1000, .defaults⟩

/-- The first transaction mutates its column twice, the second one wants it in between. -/
def calls : List JointCall := [
  .beginTx .none, .beginTx .none,
  .lock "rows" 0 [1] [1] none, .lock "rows" 1 [1] [2] none,
  .mutate "rows" 0 [1] ⟨[⟨[1], [7]⟩], []⟩,
  .lock "rows" 1 [1] [1] (some [7]),
  .advance 10,
  .mutateMany 1 (Batch.set .empty "rows" [1] ⟨[⟨[2], [8]⟩], []⟩),
  .mutate "rows" 0 [1] ⟨[⟨[1], [9]⟩], []⟩,
  .commit 0, .rollback 1]

end Contest

theorem no_lost_update_contest :
    (∀ m ∈ history Contest.setup Contest.calls (.new .new),
      m.before.base.lockers.Lasting (now m.before.base)) ∧
    TouchesLocked (history Contest.setup Contest.calls (.new .new)) ∧
    NoLostUpdate (history Contest.setup Contest.calls (.new .new)) := by
  have hlast : ∀ m ∈ history Contest.setup Contest.calls (.new .new),
      m.before.base.lockers.Lasting (now m.before.base) := by decide +kernel
  have hown : TouchesLocked (history Contest.setup Contest.calls (.new .new)) := by decide +kernel
  exact ⟨hlast, hown, no_lost_update Contest.setup .new Contest.calls Memory.sound_new hlast hown⟩

/-- Both mutations of the first transaction go through, and the second one is refused its column. -/
example : (history Contest.setup Contest.calls (.new .new)).map (fun m => (m.writes 0, m.writes 1)) =
    [(false, false), (false, false), (false, false), (false, false), (true, false), (false, false),
      (false, false), (false, true), (true, false), (false, false), (false, false)] := by
  decide +kernel

end RowGraph
