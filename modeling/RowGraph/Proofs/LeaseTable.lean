import RowGraph.Proofs.JointCalls

/-!
# Leases

What a locker answers over a run in which any owners take, check and release locks while time passes.  A
locker has two tables, what is held and what was asked for, and they drift apart when a lease ends and
another owner takes over.  `Leased` says how both of them follow from what was done: a lock was taken last
by the owner that holds it, a target is asked for from the time it is taken until its owner releases, and
as long as a lease has not ended nobody else takes the lock.

* `leases_kept`: what every owner can rely on, for every locker and every run.
-/

namespace RowGraph

/-! ## Steps that were made -/

/-- A step that was made, with the states before and after it. -/
structure MadeLockStep where
  step : LockStep
  outcome : Outcome LockStep.Report
  before : Local
  after : Local

/-- Makes a step. -/
def LockStep.made (lease : Nanos) (s : Local) (step : LockStep) : MadeLockStep :=
  ⟨step, ((step.run lease).exec s).1, s, ((step.run lease).exec s).2⟩

/-- The steps made one after another. -/
def lockHistory (lease : Nanos) : List LockStep → Local → List MadeLockStep
  | [], _ => []
  | step :: steps, s => step.made lease s :: lockHistory lease steps (step.made lease s).after

namespace MadeLockStep

/-- The owner gets the lock on a target. -/
def Takes (m : MadeLockStep) (name : String) (owner : Nat) (target : LockTarget) : Prop :=
  m.step = .write name owner target ∧ m.outcome = .ok .done

/-- The owner releases its locks. -/
def Releases (m : MadeLockStep) (name : String) (owner : Nat) : Prop := m.step = .release name owner

end MadeLockStep

/-- The owner has got the lock on a target and has not released its locks since then. -/
def Asked (past : List MadeLockStep) (name : String) (owner : Nat) (target : LockTarget) : Prop :=
  ∃ earlier w later, past = earlier ++ w :: later ∧ w.Takes name owner target ∧
    ∀ x ∈ later, ¬ x.Releases name owner

/-- The step is the last one in which anybody got the lock on a target. -/
def TakenLast (past : List MadeLockStep) (name : String) (target : LockTarget) (w : MadeLockStep) : Prop :=
  ∃ earlier later, past = earlier ++ w :: later ∧ (∃ owner, w.Takes name owner target) ∧
    ∀ x ∈ later, ∀ owner, ¬ x.Takes name owner target

/-- The record of a lock in a locker. -/
def Local.lockRecord? (s : Local) (name : String) (target : LockTarget) : Option LockRecord :=
  (s.lockers.table name).held.get? target

/-- What owners can rely on in a run. -/
structure LeasesKept (lease : Nanos) (name : String) (made : List MadeLockStep) : Prop where
  /-- What is held was asked for by its owner. -/
  asked : ∀ m ∈ made, ∀ target r, m.after.lockRecord? name target = some r →
    target ∈ (m.after.lockers.table name).requests r.owner
  /-- A lock is refused exactly while another owner has a lease that ends later. -/
  refused : ∀ m ∈ made, ∀ owner target, m.step = .write name owner target →
    ((∃ f, m.outcome = .error f) ↔ ∃ r, m.before.lockRecord? name target = some r ∧ r.owner ≠ owner ∧
      now m.before < r.expires)
  /-- A refusal is temporary and changes nothing. -/
  unchanged : ∀ m ∈ made, ∀ owner target, m.step = .write name owner target → ∀ f,
    m.outcome = .error f → f.isTemporary = true ∧ m.after = m.before
  /-- A lock that is granted lasts for a lease. -/
  granted : ∀ m ∈ made, ∀ owner target, m.Takes name owner target →
    m.after.lockRecord? name target = some ⟨owner, now m.before + lease⟩
  /-- A check succeeds exactly if all that the owner has asked for was taken last by itself, less than
  a lease ago. -/
  checked : ∀ past m rest, made = past ++ m :: rest → ∀ owner, m.step = .check name owner →
    (m.outcome = .ok .done ↔ ∀ target, Asked past name owner target →
      ∃ w, TakenLast past name target w ∧ w.Takes name owner target ∧
        now m.before < now w.before + lease)
  /-- Two owners that have both asked for a target are not both told at one time that all is theirs. -/
  exclusive : ∀ past m between n rest, made = past ++ m :: (between ++ n :: rest) →
    now n.before = now m.before → ∀ owner other target, m.step = .check name owner →
    n.step = .check name other → Asked past name owner target →
    (∀ x ∈ between, ¬ x.Releases name owner) → Asked (past ++ m :: between) name other target →
    m.outcome = .ok .done → n.outcome = .ok .done → owner = other
  /-- Releasing leaves nothing of the owner and everything of the others. -/
  released : ∀ m ∈ made, ∀ owner, m.Releases name owner → m.outcome = .ok .done ∧
    ∀ target r, m.after.lockRecord? name target = some r ↔
      m.before.lockRecord? name target = some r ∧ r.owner ≠ owner

/-! ## What a step does to a locker -/

variable {lease : Nanos} {name : String} {m w : MadeLockStep} {past : List MadeLockStep} {s : Local}
  {owner o : Nat} {target : LockTarget}

/-- What a step does to one locker. -/
inductive LockEffect (lease : Nanos) (name : String) (m : MadeLockStep) : Prop where
  /-- Nothing, but that time may pass. -/
  | idle (htable : m.after.lockers.table name = m.before.lockers.table name)
    (htime : now m.before ≤ now m.after) (htakes : ∀ owner target, ¬ m.Takes name owner target)
    (hreleases : ∀ owner, ¬ m.Releases name owner)
  /-- A lock is taken. -/
  | taken {owner : Nat} {target : LockTarget} (htakes : m.Takes name owner target)
    (htable : (m.before.lockers.table name).write (now m.before) lease owner target =
      .ok (m.after.lockers.table name))
    (htime : now m.after = now m.before)
  /-- The locks of an owner are released. -/
  | released {owner : Nat} (hreleases : m.Releases name owner)
    (htable : m.after.lockers.table name = (m.before.lockers.table name).release owner)
    (htime : now m.after = now m.before)

/-- A lock is refused and nothing changes, or the locker writes it. -/
theorem write_made (lease : Nanos) (s : Local) (name : String) (owner : Nat) (target : LockTarget) :
    (∃ n, (s.lockers.table name).holder? (now s) owner target = some n ∧
        ((LockStep.write name owner target).made lease s).outcome = .error (LockTable.contended target n) ∧
        ((LockStep.write name owner target).made lease s).after = s) ∨
      ∃ t, (s.lockers.table name).write (now s) lease owner target = .ok t ∧
        ((LockStep.write name owner target).made lease s).outcome = .ok .done ∧
        ((LockStep.write name owner target).made lease s).after =
          { s with lockers := s.lockers.put name t } := by
  unfold LockStep.made LockStep.run
  cases hw : (s.lockers.table name).write (now s) lease owner target with
  | error f =>
    left
    have hwrite : ((Local.locks lease).write name target owner).exec s = (.error f, s) :=
      Checking.locks_write_error (by rw [Lockers.write_eq, hw]; rfl)
    unfold LockTable.write at hw
    split at hw
    · rename_i n hn
      rw [Act.exec_bind_error hwrite, ← Except.error.inj hw]
      exact ⟨n, hn, rfl, rfl⟩
    · cases hw
  | ok t =>
    right
    have hwrite : ((Local.locks lease).write name target owner).exec s =
        (.ok (), { s with lockers := s.lockers.put name t }) :=
      Checking.locks_write_ok (by rw [Lockers.write_eq, hw]; rfl)
    rw [Act.exec_bind_ok hwrite]
    exact ⟨t, rfl, rfl, rfl⟩

theorem check_made (lease : Nanos) (s : Local) (name : String) (owner : Nat) :
    ((LockStep.check name owner).made lease s).after = s ∧
      (((LockStep.check name owner).made lease s).outcome = .ok .done ↔
        (s.lockers.table name).check (now s) owner = .ok ()) := by
  have hcheck : ((Local.locks lease).check name owner).exec s =
      ((s.lockers.table name).check (now s) owner, s) := rfl
  unfold LockStep.made LockStep.run
  cases hc : (s.lockers.table name).check (now s) owner with
  | error f =>
    rw [hc] at hcheck
    rw [Act.exec_bind_error hcheck]
    exact ⟨rfl, by simp⟩
  | ok u =>
    rw [hc] at hcheck
    rw [Act.exec_bind_ok hcheck]
    exact ⟨rfl, by simp⟩

/-- Every step has one of the effects on a locker. -/
theorem effect_made (lease : Nanos) (name : String) (s : Local) (step : LockStep) :
    LockEffect lease name (step.made lease s) := by
  cases step with
  | begun =>
    exact .idle rfl (Nat.le_refl _) (fun _ _ h => by cases h.1) (fun _ h => by cases h)
  | advance d =>
    exact .idle rfl (Nat.le_add_right _ _) (fun _ _ h => by cases h.1) (fun _ h => by cases h)
  | held other =>
    exact .idle rfl (Nat.le_refl _) (fun _ _ h => by cases h.1) (fun _ h => by cases h)
  | check other owner =>
    have hafter := (check_made lease s other owner).1
    refine .idle ?_ ?_ (fun _ _ h => by cases h.1) (fun _ h => by cases h)
    · rw [hafter]
      rfl
    · rw [hafter]
      exact Nat.le_refl _
  | write other owner target =>
    obtain ⟨n, -, houtcome, hafter⟩ | ⟨t, ht, houtcome, hafter⟩ := write_made lease s other owner target
    · refine .idle (by rw [hafter]; rfl) (by rw [hafter]; exact Nat.le_refl _) (fun _ _ h => ?_)
        (fun _ h => by cases h)
      have hok := houtcome.symm.trans h.2
      cases hok
    · have htable : ((LockStep.write other owner target).made lease s).after.lockers.table name =
          if name = other then t else s.lockers.table name := by
        rw [hafter]
        exact Lockers.table_put ..
      have htime : now ((LockStep.write other owner target).made lease s).after = now s := by
        rw [hafter]
        rfl
      by_cases hname : name = other
      · subst hname
        rw [if_pos rfl] at htable
        refine .taken ⟨rfl, houtcome⟩ ?_ htime
        rw [htable]
        exact ht
      · rw [if_neg hname] at htable
        refine .idle htable (Nat.le_of_eq htime.symm) (fun _ _ h => ?_) (fun _ h => by cases h)
        have hstep := h.1
        cases hstep
        exact hname rfl
  | release other owner =>
    have htable : ((LockStep.release other owner).made lease s).after.lockers =
        s.lockers.release other owner := rfl
    by_cases hname : other = name
    · subst hname
      refine .released rfl ?_ rfl
      rw [htable]
      unfold Lockers.release
      rw [Lockers.table_put, if_pos rfl]
      rfl
    · refine .idle ?_ (Nat.le_refl _) (fun _ _ h => by cases h.1) (fun _ h => ?_)
      · rw [htable]
        unfold Lockers.release
        rw [Lockers.table_put, if_neg (Ne.symm hname)]
        rfl
      · cases h
        exact hname rfl

/-! ## Histories -/

theorem split_snoc {earlier later : List MadeLockStep} (h : past ++ [m] = earlier ++ w :: later) :
    (later = [] ∧ earlier = past ∧ w = m) ∨ ∃ rest, later = rest ++ [m] ∧ past = earlier ++ w :: rest := by
  rcases List.eq_nil_or_concat later with rfl | ⟨rest, z, rfl⟩
  · left
    obtain ⟨h₁, h₂⟩ := List.append_inj' h rfl
    exact ⟨rfl, h₁.symm, (List.singleton_inj.mp h₂).symm⟩
  · right
    rw [List.concat_eq_append] at h ⊢
    have h' : past ++ [m] = (earlier ++ w :: rest) ++ [z] := by
      rw [h]
      simp
    obtain ⟨h₁, h₂⟩ := List.append_inj' h' rfl
    rw [List.singleton_inj.mp h₂]
    exact ⟨rest, rfl, h₁⟩

theorem asked_snoc : Asked (past ++ [m]) name o target ↔
    m.Takes name o target ∨ Asked past name o target ∧ ¬ m.Releases name o := by
  constructor
  · rintro ⟨earlier, w, later, hsplit, htakes, hlater⟩
    obtain ⟨rfl, rfl, rfl⟩ | ⟨rest, rfl, hpast⟩ := split_snoc hsplit
    · exact .inl htakes
    · right
      refine ⟨⟨earlier, w, rest, hpast, htakes, fun x hx => ?_⟩, ?_⟩
      · exact hlater x (List.mem_append_left _ hx)
      · exact hlater m (by simp)
  · rintro (htakes | ⟨⟨earlier, w, later, rfl, htakes, hlater⟩, hm⟩)
    · exact ⟨past, m, [], rfl, htakes, by simp⟩
    · refine ⟨earlier, w, later ++ [m], by simp, htakes, ?_⟩
      simp only [List.forall_mem_append, List.forall_mem_singleton]
      exact ⟨hlater, hm⟩

theorem TakenLast.snoc (h : TakenLast past name target w) (hm : ∀ owner, ¬ m.Takes name owner target) :
    TakenLast (past ++ [m]) name target w := by
  obtain ⟨earlier, later, rfl, htakes, hlater⟩ := h
  refine ⟨earlier, later ++ [m], by simp, htakes, ?_⟩
  simp only [List.forall_mem_append, List.forall_mem_singleton]
  exact ⟨hlater, hm⟩

/-- Who has asked for a target has not released its locks since the target was taken last. -/
theorem TakenLast.unreleased (h : TakenLast past name target w) (hasked : Asked past name owner target) :
    ∃ earlier later, past = earlier ++ w :: later ∧ ∀ x ∈ later, ¬ x.Releases name owner := by
  obtain ⟨earlier, later, rfl, -, hlater⟩ := h
  obtain ⟨earlier', w', later', hsplit, hw', hkeeps⟩ := hasked
  refine ⟨earlier, later, rfl, ?_⟩
  -- The owner has taken the lock before the last one or as the last one, not after it.
  rcases List.append_eq_append_iff.mp hsplit with ⟨between, -, hafter⟩ | ⟨between, -, hafter⟩
  · cases between with
    | nil =>
      obtain ⟨rfl, rfl⟩ := List.cons.inj hafter
      exact hkeeps
    | cons x between =>
      obtain ⟨rfl, rfl⟩ := List.cons.inj hafter
      exact absurd hw' (hlater w' (by simp) owner)
  · cases between with
    | nil =>
      obtain ⟨rfl, rfl⟩ := List.cons.inj hafter
      exact hkeeps
    | cons x between =>
      obtain ⟨rfl, rfl⟩ := List.cons.inj hafter
      exact fun y hy => hkeeps y (by simp [hy])

/-! ## What every step keeps -/

/-- The tables of a locker follow from the steps made before. -/
structure Leased (lease : Nanos) (name : String) (past : List MadeLockStep) (s : Local) : Prop where
  /-- Time does not go back. -/
  time : ∀ x ∈ past, now x.before ≤ now s
  requests : ∀ owner target,
    target ∈ (s.lockers.table name).requests owner ↔ Asked past name owner target
  /-- What is held was taken last by its owner, and asked for since. -/
  held : ∀ target r, s.lockRecord? name target = some r → Asked past name r.owner target ∧
    ∃ w, TakenLast past name target w ∧ w.Takes name r.owner target ∧ r.expires = now w.before + lease
  /-- Until a lease ends, or its owner releases, the lock stays with the owner. -/
  lasting : ∀ earlier w later owner target, past = earlier ++ w :: later → w.Takes name owner target →
    (∀ x ∈ later, ¬ x.Releases name owner) → now s < now w.before + lease →
    ∃ r, s.lockRecord? name target = some r ∧ r.owner = owner ∧ now w.before + lease ≤ r.expires

theorem leased_new (lease : Nanos) (name : String) (s : Local) :
    Leased lease name [] { s with lockers := .empty } where
  time := by simp
  requests owner target := by
    constructor
    · intro h
      cases h
    · rintro ⟨earlier, w, later, h, -⟩
      simp at h
  held target r h := by cases h
  lasting earlier w later owner target h := by simp at h

namespace Leased

theorem time_snoc (h : Leased lease name past m.before) (htime : now m.before ≤ now m.after) :
    ∀ x ∈ past ++ [m], now x.before ≤ now m.after := by
  simp only [List.forall_mem_append, List.forall_mem_singleton]
  exact ⟨fun x hx => Nat.le_trans (h.time x hx) htime, htime⟩

/-- A step that leaves the locker alone. -/
theorem step_idle (h : Leased lease name past m.before)
    (htable : m.after.lockers.table name = m.before.lockers.table name)
    (htime : now m.before ≤ now m.after) (htakes : ∀ owner target, ¬ m.Takes name owner target)
    (hreleases : ∀ owner, ¬ m.Releases name owner) : Leased lease name (past ++ [m]) m.after := by
  have hrecord (target : LockTarget) : m.after.lockRecord? name target = m.before.lockRecord? name target := by
    unfold Local.lockRecord?
    rw [htable]
  refine ⟨h.time_snoc htime, fun owner target => ?_, fun target r hr => ?_,
    fun earlier w later owner target hsplit hw hlater hlt => ?_⟩
  · rw [htable, h.requests, asked_snoc]
    simp [htakes, hreleases]
  · rw [hrecord] at hr
    obtain ⟨hasked, w, hlast, hw⟩ := h.held target r hr
    exact ⟨asked_snoc.mpr (.inr ⟨hasked, hreleases _⟩), w, hlast.snoc (fun o => htakes o target), hw⟩
  · obtain ⟨-, -, rfl⟩ | ⟨rest, rfl, hpast⟩ := split_snoc hsplit
    · exact absurd hw (htakes _ _)
    · rw [hrecord]
      refine h.lasting earlier w rest owner target hpast hw (fun x hx => ?_) (Nat.lt_of_le_of_lt htime hlt)
      exact hlater x (List.mem_append_left _ hx)

/-- A lock is taken. -/
theorem step_taken (h : Leased lease name past m.before) (htakes : m.Takes name owner target)
    (htable : (m.before.lockers.table name).write (now m.before) lease owner target =
      .ok (m.after.lockers.table name))
    (htime : now m.after = now m.before) : Leased lease name (past ++ [m]) m.after := by
  have hrecord (x : LockTarget) : m.after.lockRecord? name x =
      if x = target then some ⟨owner, now m.before + lease⟩ else m.before.lockRecord? name x := by
    unfold Local.lockRecord?
    rw [(LockTable.write_eq_ok htable).2, SortedMap.get?_put]
  have honly : ∀ o x, m.Takes name o x → o = owner ∧ x = target := by
    intro o x hx
    have hstep := hx.1.symm.trans htakes.1
    cases hstep
    exact ⟨rfl, rfl⟩
  have hreleases : ∀ o, ¬ m.Releases name o := by
    intro o ho
    have hstep := ho.symm.trans htakes.1
    cases hstep
  refine ⟨h.time_snoc (Nat.le_of_eq htime.symm), fun o x => ?_, fun x r hr => ?_,
    fun earlier w later o x hsplit hw hlater hlt => ?_⟩
  · rw [LockTable.requests_write htable, h.requests, asked_snoc]
    constructor
    · rintro (hasked | ⟨rfl, rfl⟩)
      · exact .inr ⟨hasked, hreleases o⟩
      · exact .inl htakes
    · rintro (hx | ⟨hasked, -⟩)
      · exact .inr (honly o x hx)
      · exact .inl hasked
  · rw [hrecord] at hr
    split at hr
    · rename_i hx
      subst hx
      cases hr
      exact ⟨asked_snoc.mpr (.inl htakes), m, ⟨past, [], rfl, ⟨owner, htakes⟩, by simp⟩, htakes, rfl⟩
    · rename_i hx
      obtain ⟨hasked, w, hlast, hw⟩ := h.held x r hr
      refine ⟨asked_snoc.mpr (.inr ⟨hasked, hreleases _⟩), w, hlast.snoc fun o ho => ?_, hw⟩
      exact hx (honly o x ho).2
  · obtain ⟨-, -, rfl⟩ | ⟨rest, rfl, hpast⟩ := split_snoc hsplit
    · obtain ⟨rfl, rfl⟩ := honly o x hw
      exact ⟨⟨o, now w.before + lease⟩, by rw [hrecord, if_pos rfl], rfl, Nat.le_refl _⟩
    · -- The lease of the earlier owner has not ended, so nobody else can have taken the lock now.
      rw [htime] at hlt
      obtain ⟨r, hr, hro, hexpires⟩ := h.lasting earlier w rest o x hpast hw
        (fun y hy => hlater y (List.mem_append_left _ hy)) hlt
      rw [hrecord]
      by_cases hx : x = target
      · subst hx
        have ho : r.owner = owner := by
          by_contra hne
          have hended : r.expires ≤ now m.before := LockTable.expires_le_of_write htable hr hne
          exact absurd (Nat.lt_of_lt_of_le hlt (Nat.le_trans hexpires hended)) (Nat.lt_irrefl _)
        have hw' : now w.before ≤ now m.before := h.time w (by rw [hpast]; simp)
        exact ⟨⟨owner, now m.before + lease⟩, if_pos rfl, ho.symm.trans hro, Nat.add_le_add_right hw' lease⟩
      · exact ⟨r, by rw [if_neg hx, hr], hro, hexpires⟩

theorem asked_of_held (h : Leased lease name past s) {x : LockTarget} {r : LockRecord}
    (hr : (s.lockers.table name).held.get? x = some r) : x ∈ (s.lockers.table name).requests r.owner :=
  (h.requests _ _).mpr (h.held x r hr).1

/-- An owner releases its locks. -/
theorem step_released (h : Leased lease name past m.before) (hreleases : m.Releases name owner)
    (htable : m.after.lockers.table name = (m.before.lockers.table name).release owner)
    (htime : now m.after = now m.before) : Leased lease name (past ++ [m]) m.after := by
  have hrecord (x : LockTarget) (r : LockRecord) : m.after.lockRecord? name x = some r ↔
      m.before.lockRecord? name x = some r ∧ r.owner ≠ owner := by
    unfold Local.lockRecord?
    rw [htable]
    exact LockTable.get?_release (fun r hr => h.asked_of_held hr) r
  have honly : ∀ o, m.Releases name o ↔ o = owner := by
    intro o
    constructor
    · intro ho
      have hstep := ho.symm.trans hreleases
      cases hstep
      rfl
    · rintro rfl
      exact hreleases
  have htakes : ∀ o x, ¬ m.Takes name o x := by
    intro o x hx
    have hstep := hx.1.symm.trans hreleases
    cases hstep
  refine ⟨h.time_snoc (Nat.le_of_eq htime.symm), fun o x => ?_, fun x r hr => ?_,
    fun earlier w later o x hsplit hw hlater hlt => ?_⟩
  · rw [htable, LockTable.requests_release, asked_snoc, honly, ← h.requests]
    by_cases ho : o = owner
    · simp [ho, htakes]
    · simp [ho, htakes]
  · obtain ⟨hr, hne⟩ := (hrecord x r).mp hr
    obtain ⟨hasked, w, hlast, hw⟩ := h.held x r hr
    exact ⟨asked_snoc.mpr (.inr ⟨hasked, fun ho => hne ((honly _).mp ho)⟩), w,
      hlast.snoc (fun o => htakes o x), hw⟩
  · obtain ⟨-, -, rfl⟩ | ⟨rest, rfl, hpast⟩ := split_snoc hsplit
    · exact absurd hw (htakes _ _)
    · rw [htime] at hlt
      obtain ⟨r, hr, hro, hexpires⟩ := h.lasting earlier w rest o x hpast hw
        (fun y hy => hlater y (List.mem_append_left _ hy)) hlt
      refine ⟨r, (hrecord x r).mpr ⟨hr, fun ho => ?_⟩, hro, hexpires⟩
      exact hlater m (by simp) ((honly o).mpr (hro.symm.trans ho))

theorem step (h : Leased lease name past m.before) (heffect : LockEffect lease name m) :
    Leased lease name (past ++ [m]) m.after := by
  cases heffect with
  | idle htable htime htakes hreleases => exact h.step_idle htable htime htakes hreleases
  | taken htakes htable htime => exact h.step_taken htakes htable htime
  | released hreleases htable htime => exact h.step_released hreleases htable htime

/-- Before each step of a run the tables follow from the steps made before it. -/
theorem run {before : List MadeLockStep} {steps : List LockStep} (h : Leased lease name before s)
    {rest : List MadeLockStep} (hsplit : lockHistory lease steps s = past ++ m :: rest) :
    Leased lease name (before ++ past) m.before ∧ m = m.step.made lease m.before := by
  induction steps generalizing before s past with
  | nil => cases past <;> cases hsplit
  | cons step steps ih =>
    cases past with
    | nil =>
      obtain ⟨rfl, -⟩ := List.cons.inj hsplit
      rw [List.append_nil]
      exact ⟨h, rfl⟩
    | cons x past =>
      obtain ⟨hx, htail⟩ := List.cons.inj hsplit
      subst hx
      have hstep := h.step (effect_made lease name s step)
      have hrest := ih hstep htail
      rwa [List.append_assoc] at hrest

/-! ## What owners can rely on -/

section

variable (h : Leased lease name past m.before) (hmade : m = m.step.made lease m.before)

include h hmade

theorem asked_after {r : LockRecord} (hr : m.after.lockRecord? name target = some r) :
    target ∈ (m.after.lockers.table name).requests r.owner := by
  have hafter := h.step (hmade ▸ effect_made lease name m.before m.step)
  exact hafter.asked_of_held hr

/-- A check succeeds exactly if all that was asked for is held, under a lease that has not ended. -/
theorem check_iff (hcheck : m.step = .check name owner) : m.outcome = .ok .done ↔
    ∀ target, Asked past name owner target →
      ∃ r, m.before.lockRecord? name target = some r ∧ r.owner = owner ∧ now m.before < r.expires := by
  rw [hcheck] at hmade
  rw [hmade, (check_made ..).2, LockTable.check_eq_ok]
  constructor
  · intro hall target hasked
    exact hall target ((h.requests _ _).mpr hasked)
  · intro hall target hmem
    exact hall target ((h.requests _ _).mp hmem)

theorem checked_iff (hcheck : m.step = .check name owner) : m.outcome = .ok .done ↔
    ∀ target, Asked past name owner target → ∃ w, TakenLast past name target w ∧
      w.Takes name owner target ∧ now m.before < now w.before + lease := by
  rw [h.check_iff hmade hcheck]
  constructor
  · intro hall target hasked
    obtain ⟨r, hr, rfl, hlt⟩ := hall target hasked
    obtain ⟨-, w, hlast, hw, hexpires⟩ := h.held target r hr
    exact ⟨w, hlast, hw, hexpires ▸ hlt⟩
  · intro hall target hasked
    obtain ⟨w, hlast, hw, hlt⟩ := hall target hasked
    obtain ⟨earlier, later, hsplit, hkeeps⟩ := hlast.unreleased hasked
    obtain ⟨r, hr, hro, hexpires⟩ := h.lasting earlier w later owner target hsplit hw hkeeps hlt
    exact ⟨r, hr, hro, Nat.lt_of_lt_of_le hlt hexpires⟩

/-- What a check has found is still its owner's as long as no time passes and the owner does not release. -/
theorem held_at_once {between : List MadeLockStep} {s : Local}
    (h' : Leased lease name (past ++ m :: between) s) (htime : now s = now m.before)
    (hcheck : m.step = .check name owner) (hok : m.outcome = .ok .done)
    (hasked : Asked past name owner target) (hkeeps : ∀ x ∈ between, ¬ x.Releases name owner) :
    ∃ r, s.lockRecord? name target = some r ∧ r.owner = owner := by
  obtain ⟨r, hr, rfl, hlt⟩ := (h.check_iff hmade hcheck).mp hok target hasked
  obtain ⟨-, w, hlast, hw, hexpires⟩ := h.held target r hr
  obtain ⟨earlier, later, rfl, hlater⟩ := hlast.unreleased hasked
  have hkept : ∀ x ∈ later ++ m :: between, ¬ x.Releases name r.owner := by
    simp only [List.forall_mem_append, List.forall_mem_cons]
    refine ⟨hlater, fun hx => ?_, hkeeps⟩
    have hstep := hcheck.symm.trans hx
    cases hstep
  rw [hexpires, ← htime] at hlt
  obtain ⟨r', hr', howner, -⟩ := h'.lasting earlier w (later ++ m :: between) r.owner target
    (by simp) hw hkept hlt
  exact ⟨r', hr', howner⟩

theorem released_iff (hreleases : m.Releases name owner) : m.outcome = .ok .done ∧
    ∀ target r, m.after.lockRecord? name target = some r ↔
      m.before.lockRecord? name target = some r ∧ r.owner ≠ owner := by
  rw [hreleases] at hmade
  have htable : m.after.lockers.table name = (m.before.lockers.table name).release owner := by
    rw [hmade]
    exact (Lockers.table_put ..).trans (if_pos rfl)
  refine ⟨by rw [hmade]; rfl, fun target r => ?_⟩
  unfold Local.lockRecord?
  rw [htable]
  exact LockTable.get?_release (fun r hr => h.asked_of_held hr) r

end

end Leased

theorem refused_iff (hmade : m = m.step.made lease m.before)
    (hstep : m.step = .write name owner target) : (∃ f, m.outcome = .error f) ↔
      ∃ r, m.before.lockRecord? name target = some r ∧ r.owner ≠ owner ∧ now m.before < r.expires := by
  rw [hstep] at hmade
  rw [hmade]
  obtain ⟨n, hn, houtcome, -⟩ | ⟨t, ht, houtcome, -⟩ := write_made lease m.before name owner target
  · obtain ⟨r, hr, hne, hlt, -⟩ := LockTable.holder?_eq_some.mp hn
    exact iff_of_true ⟨_, houtcome⟩ ⟨r, hr, hne, hlt⟩
  · rw [houtcome]
    refine iff_of_false (by simp) ?_
    rintro ⟨r, hr, hne, hlt⟩
    exact absurd (LockTable.expires_le_of_write ht hr hne) (Nat.not_le_of_lt hlt)

theorem unchanged_of_refused (hmade : m = m.step.made lease m.before)
    (hstep : m.step = .write name owner target) {f : Failure} (hf : m.outcome = .error f) :
    f.isTemporary = true ∧ m.after = m.before := by
  rw [hstep] at hmade
  rw [hmade] at hf ⊢
  obtain ⟨n, -, houtcome, hafter⟩ | ⟨t, -, houtcome, -⟩ := write_made lease m.before name owner target
  · rw [houtcome] at hf
    cases hf
    exact ⟨rfl, hafter⟩
  · rw [houtcome] at hf
    cases hf

theorem record_of_takes (hmade : m = m.step.made lease m.before) (htakes : m.Takes name owner target) :
    m.after.lockRecord? name target = some ⟨owner, now m.before + lease⟩ := by
  obtain ⟨hstep, hok⟩ := htakes
  rw [hstep] at hmade
  rw [hmade] at hok ⊢
  obtain ⟨n, -, houtcome, -⟩ | ⟨t, ht, -, hafter⟩ := write_made lease m.before name owner target
  · rw [houtcome] at hok
    cases hok
  · rw [hafter]
    unfold Local.lockRecord?
    rw [Lockers.table_put, if_pos rfl, (LockTable.write_eq_ok ht).2, SortedMap.get?_put, if_pos rfl]
    rfl

/-- Whatever owners do with a locker while time passes, its locks are leases. -/
theorem leases_kept (lease : Nanos) (name : String) (s : Local) (steps : List LockStep) :
    LeasesKept lease name (lockHistory lease steps { s with lockers := .empty }) := by
  have hrun {past : List MadeLockStep} {m : MadeLockStep} {rest : List MadeLockStep}
      (hsplit : lockHistory lease steps { s with lockers := .empty } = past ++ m :: rest) :
      Leased lease name past m.before ∧ m = m.step.made lease m.before := by
    simpa using (leased_new lease name s).run hsplit
  have hmem {m : MadeLockStep} (hm : m ∈ lockHistory lease steps { s with lockers := .empty }) :
      ∃ past, Leased lease name past m.before ∧ m = m.step.made lease m.before := by
    obtain ⟨past, rest, hsplit⟩ := List.append_of_mem hm
    exact ⟨past, hrun hsplit⟩
  constructor
  case asked =>
    intro m hm target r hr
    obtain ⟨past, h, hmade⟩ := hmem hm
    exact h.asked_after hmade hr
  case refused =>
    intro m hm owner target hstep
    obtain ⟨past, -, hmade⟩ := hmem hm
    exact refused_iff hmade hstep
  case unchanged =>
    intro m hm owner target hstep f hf
    obtain ⟨past, -, hmade⟩ := hmem hm
    exact unchanged_of_refused hmade hstep hf
  case granted =>
    intro m hm owner target htakes
    obtain ⟨past, -, hmade⟩ := hmem hm
    exact record_of_takes hmade htakes
  case checked =>
    intro past m rest hsplit owner hcheck
    obtain ⟨h, hmade⟩ := hrun hsplit
    exact h.checked_iff hmade hcheck
  case exclusive =>
    intro past m between n rest hsplit htime owner other target hm hn hasked hkeeps hasked' hok hok'
    obtain ⟨h, hmade⟩ := hrun hsplit
    have hsplit' : lockHistory lease steps { s with lockers := .empty } =
        (past ++ m :: between) ++ n :: rest := by
      rw [hsplit, List.append_assoc, List.cons_append]
    obtain ⟨h', hmade'⟩ := hrun hsplit'
    obtain ⟨r, hr, rfl⟩ := h.held_at_once hmade h' htime hm hok hasked hkeeps
    obtain ⟨r', hr', rfl, -⟩ := (h'.check_iff hmade' hn).mp hok' target hasked'
    rw [hr] at hr'
    cases hr'
    rfl
  case released =>
    intro m hm owner hreleases
    obtain ⟨past, h, hmade⟩ := hmem hm
    exact h.released_iff hmade hreleases

/-- An owner checks its lock, and does not release it when the lease ends: another one takes over, and
then the first one cannot take the lock, finds it lost, and by releasing takes nothing from the other. -/
example :
    (lockHistory 10 [.write "rows" 1 ⟨[1], [1]⟩, .check "rows" 1, .write "rows" 2 ⟨[1], [1]⟩, .advance 10,
        .write "rows" 2 ⟨[1], [1]⟩, .write "rows" 1 ⟨[1], [1]⟩, .check "rows" 1, .release "rows" 1,
        .check "rows" 2] .new).map
      (fun m => (m.outcome.toOption.isSome, m.after.lockRecord? "rows" ⟨[1], [1]⟩)) =
    [(true, some ⟨1, 10⟩), (true, some ⟨1, 10⟩), (false, some ⟨1, 10⟩), (true, some ⟨1, 10⟩),
      (true, some ⟨2, 20⟩), (false, some ⟨2, 20⟩), (false, some ⟨2, 20⟩), (true, some ⟨2, 20⟩),
      (true, some ⟨2, 20⟩)] := by
  decide +kernel

end RowGraph
