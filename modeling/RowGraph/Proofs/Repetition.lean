import RowGraph.Proofs.Rounding
import RowGraph.Proofs.Views
import RowGraph.Storage.Rehearsal

/-!
# Repeated calls

The trials that an operation makes of a call, written down while it runs (`recording`).  `Tries` is how
the operation goes on from a trial; with the fuel that it is given it never runs out (`repeated_tries`),
because a wait that has doubled often enough takes time, whatever share of it the jitter leaves.  Which
trial decides does not depend on that: whatever the policy is, it is the last one (`Operation.direct_ends`).

* `Operation.keeps_schedule`: which trials are made and when, what their outcomes are made into, and that
  all of them start before the deadline.
-/

namespace RowGraph

/-! ## Recording trials -/

/-- A call that was made, with the states before and after it. -/
structure Trial (σ α : Type) where
  before : σ
  outcome : Outcome α
  after : σ

/-- A state with the trials made so far. -/
structure Recorded (σ α : Type) where
  base : σ
  trials : List (Trial σ α)

variable {σ α : Type}

instance [Timed σ] : Timed (Recorded σ α) :=
  ⟨fun s => Timed.clock s.base, fun s c => { s with base := Timed.setClock s.base c }⟩

/-- The trial of a call from a state. -/
def Trial.of (call : Act σ α) (s : σ) : Trial σ α := ⟨s, (call.exec s).1, (call.exec s).2⟩

/-- The call with every trial written down. -/
def recording (call : Act σ α) : Act (Recorded σ α) α := Act.of fun s =>
  ((call.exec s.base).1, ⟨(call.exec s.base).2, s.trials ++ [.of call s.base]⟩)

/-- Was the outcome of a trial classified as transient? -/
def Trial.IsTransient (t : Trial σ α) : Prop := ∃ last, Attempt.classify t.outcome = .transient last

namespace Operation

/-- The operation with trials beside the state. -/
def recorded (op : Operation σ) : Operation (Recorded σ α) where
  name := op.name
  budget := op.budget
  policy := op.policy
  draw := op.draw
  interrupted := fun s => op.interrupted s.base
  note := fun s => { s with base := op.note s.base }

/-- The wait after trial `k`, counted from zero. -/
def waitAfter (op : Operation σ) (k : Nat) : Nanos := op.policy.wait (op.draw k) (op.policy.nominal k)

/-- Trial `k` calls for another one: it was transient, the wait ends before the deadline, and the
interrupt is not set when the sleep begins. -/
def Repeats [Timed σ] (op : Operation σ) (deadline : Nanos) (k : Nat) (t : Trial σ α) : Prop :=
  t.IsTransient ∧ now t.after + op.waitAfter k < deadline ∧ op.interrupted (op.note t.after) = false

/-- After trial `k` the operation gives up because of the deadline. -/
def GivesUp [Timed σ] (op : Operation σ) (deadline : Nanos) (k : Nat) (t : Trial σ α) : Prop :=
  t.IsTransient ∧ deadline ≤ now t.after + op.waitAfter k

/-- What becomes of trial `k` if it is the last one. -/
def verdict [Timed σ] (op : Operation σ) (deadline : Nanos) (k : Nat) (t : Trial σ α) :
    Except BackendFailure α :=
  match Attempt.classify t.outcome with
  | .success value => .ok value
  | .permanent f => .error f
  | .transient last =>
    if deadline ≤ now t.after + op.waitAfter k then .error (op.exhausted (k + 1) last)
    else .error .interrupted

end Operation

/-- The trials of a call from a state on, and what they lead to. -/
structure KeepsSchedule [Timed σ] (op : Operation σ) (call : Act σ α) (s : σ)
    (trials : List (Trial σ α)) (result : Except BackendFailure α) (s' : σ) : Prop where
  /-- Every trial is one of the call, and the first one is made at once. -/
  made : ∀ t ∈ trials, t = .of call t.before
  first : trials.head?.map Trial.before = some s
  /-- A trial is followed by another one exactly if it calls for it. -/
  again : ∀ k t, trials[k]? = some t →
    (k + 1 < trials.length ↔ op.Repeats (now s + op.budget) k t)
  /-- In between there is the wait. -/
  waits : ∀ k t u, trials[k]? = some t → trials[k + 1]? = some u →
    u.before = sleepFor (op.waitAfter k) (op.note t.after)
  /-- Without jitter the waits double. -/
  doubling : op.policy.jitter.isZero = true → ∀ k, k + 1 < trials.length →
    op.waitAfter k = op.policy.baseWait * 2 ^ k
  /-- Every trial starts before the deadline. -/
  early : ∀ t ∈ trials, now t.before < now s + op.budget
  /-- All the trials take less than the budget and the time of the last one. -/
  elapsed : ∀ t, trials.getLast? = some t →
    now s' - now s < op.budget + (now t.after - now t.before)
  /-- The last trial decides. -/
  verdict : ∀ t, trials.getLast? = some t →
    result = op.verdict (now s + op.budget) (trials.length - 1) t
  /-- A result is the value of the first trial that has one. -/
  value : ∀ a, result = .ok a ↔ trials.findSome? (fun t => t.outcome.toOption) = some a
  /-- The failure of the named operation is temporary exactly if it has given up because of the
  deadline. -/
  temporary : ∀ f, result = .error f → ((Failure.operation op.name f).isTemporary = true ↔
    ∃ t, trials.getLast? = some t ∧ op.GivesUp (now s + op.budget) (trials.length - 1) t)

/-- The clock can be set, a call does not turn it back, and a note leaves it alone. -/
structure Timely [Timed σ] (op : Operation σ) (call : Act σ α) : Prop where
  set : ∀ (s : σ) c, Timed.clock (Timed.setClock s c) = c
  call : ∀ s, now s ≤ now (call.exec s).2
  note : ∀ s, now (op.note s) = now s

/-- The least factor that may be drawn: one less the jitter. -/
def RetryPolicy.least (p : RetryPolicy) : Binary64 :=
  .nearest false (Binary64.unitsPerOne - p.jitter.units) Binary64.unitsPerOne

/-- An operation with a budget, a wait and a jitter that settings may ask for. The factors are drawn from
the range of the jitter around one; all that is used of this is its lower end. -/
structure Operation.Regular (op : Operation σ) : Prop where
  budget : 0 < op.budget
  longest : op.budget ≤ Nanos.longest
  baseWait : 0 < op.policy.baseWait
  jitter : Settings.jitterInRange op.policy.jitter = true
  draw : op.policy.varies = true → ∀ k, op.policy.least.units ≤ (op.draw k).units

/-! ## Waits -/

namespace RetryPolicy

variable {p : RetryPolicy} {factor : Binary64} {k : Nat}

theorem wait_of_isZero (h : p.jitter.isZero = true) (factor : Binary64) (nominal : Nanos) :
    p.wait factor nominal = nominal := by
  have hvaries : p.varies = false := by
    have hzero : (Binary64.ofNat 0).level = 0 := by decide +kernel
    have hnan : (Binary64.ofNat 0).isNaN = false := by decide +kernel
    have hmagnitude : p.jitter.magnitude = 0 := beq_iff_eq.mp h
    unfold varies Binary64.compareValues? Binary64.level Binary64.isNaN
    unfold Binary64.level at hzero
    unfold Binary64.isNaN at hnan
    rw [hzero, hnan, hmagnitude]
    cases p.jitter.isNegative <;> rfl
  unfold wait
  rw [hvaries]
  rfl

theorem nominal_eq (h : p.nominal k < Nanos.longest) : p.nominal k = p.baseWait * 2 ^ k := by
  refine Nat.min_eq_left (Nat.le_of_not_le fun hle => ?_)
  unfold nominal at h
  rw [Nat.min_eq_right hle] at h
  exact Nat.lt_irrefl _ h

/-- A wait that has doubled often enough takes time. -/
theorem one_le_wait (hbase : 0 < p.baseWait) (hjitter : Settings.jitterInRange p.jitter = true)
    (hdraw : p.varies = true → p.least.units ≤ factor.units) (hk : 93 ≤ k) : 1 ≤ p.wait factor (p.nominal k) := by
  have hnominal : 2 ^ 93 ≤ p.nominal k := by
    refine Nat.le_min.mpr ⟨?_, by decide⟩
    calc 2 ^ 93 ≤ 2 ^ k := Nat.pow_le_pow_right (by decide) hk
      _ ≤ p.baseWait * 2 ^ k := Nat.le_mul_of_pos_left _ hbase
  unfold wait
  split
  · rename_i hvaries
    -- The exponent stays a variable: as a numeral its power would be computed.
    obtain ⟨m, hm⟩ : ∃ m, m = 1021 := ⟨_, rfl⟩
    have hunits := Binary64.units_of_jitterInRange (k := m) (by omega) hjitter
    have hleast : 2 ^ m ≤ p.least.units := by
      refine Binary64.le_units_nearest _ (by omega) (by omega) Binary64.unitsPerOne_pos ?_
      exact Nat.mul_le_mul_right _ (Nat.le_sub_of_add_le (Nat.add_comm .. ▸ hunits))
    exact Nanos.one_le_scaled hnominal (by omega) (Nat.le_trans hleast (hdraw hvaries))
  · exact Nat.le_trans (by decide) hnominal

end RetryPolicy

/-! ## Classes of failures -/

theorem operation_exhausted (op : Operation σ) {last : Failure} (h : last.isTemporary = true)
    (attempts : Nat) (name : String) :
    (Failure.operation name (op.exhausted attempts last)).isTemporary = true := by
  unfold Failure.isTemporary at h ⊢
  unfold Operation.exhausted Failure.innermost? BackendFailure.innermost
  cases hlast : last.innermost? with
  | none =>
    rw [hlast] at h
    cases h
  | some b =>
    rw [hlast] at h
    exact h

theorem isTemporary_of_transient {o : Outcome α} {last : Failure} (h : Attempt.classify o = .transient last) :
    o = .error last ∧ last.isTemporary = true := by
  unfold Attempt.classify at h
  split at h
  · cases h
  · split at h
    · rename_i f hf
      cases h
      exact ⟨rfl, hf⟩
    · split at h <;> cases h

theorem operation_permanent {o : Outcome α} {f : BackendFailure} {name : String}
    (h : Attempt.classify o = .permanent f) : (Failure.operation name f).isTemporary = false := by
  unfold Attempt.classify at h
  split at h
  · cases h
  · rename_i e
    split at h
    · cases h
    · rename_i hnot
      split at h
      · rename_i b
        cases h
        exact Bool.eq_false_iff.mpr hnot
      · cases h
        unfold Failure.isTemporary at hnot ⊢
        unfold Failure.innermost? BackendFailure.innermost
        cases hinner : e.innermost? with
        | none => rfl
        | some b =>
          rw [hinner] at hnot
          exact Bool.eq_false_iff.mpr hnot

/-- What fails for good has no result. -/
theorem Attempt.error_of_permanent {o : Outcome α} {f : BackendFailure}
    (h : Attempt.classify o = .permanent f) : ∃ e, o = .error e := by
  cases o with
  | error e => exact ⟨e, rfl⟩
  | ok a => cases h

/-! ## How an operation goes on -/

variable [Timed σ]

/-- The trials from number `made` on, what they lead to and the state after them. -/
inductive Tries (op : Operation σ) (call : Act σ α) (deadline : Nanos) :
    Nat → σ → List (Trial σ α) → Except BackendFailure α → σ → Prop
  /-- The last trial. -/
  | ended {made : Nat} {s s' : σ} (hends : ¬ op.Repeats deadline made (.of call s))
    (hnow : s' = (Trial.of call s).after ∨ s' = op.note (Trial.of call s).after) :
    Tries op call deadline made s [.of call s] (op.verdict deadline made (.of call s)) s'
  /-- A trial, a wait and more trials. -/
  | again {made : Nat} {s s' : σ} {trials : List (Trial σ α)} {result : Except BackendFailure α}
    (hrepeats : op.Repeats deadline made (.of call s))
    (hrest : Tries op call deadline (made + 1)
      (sleepFor (op.waitAfter made) (op.note (Trial.of call s).after)) trials result s') :
    Tries op call deadline made s (.of call s :: trials) result s'

namespace Tries

variable {op : Operation σ} {call : Act σ α} {deadline : Nanos} {made : Nat} {s s' : σ}
  {trials : List (Trial σ α)} {result : Except BackendFailure α}

theorem head (h : Tries op call deadline made s trials result s') : trials.head? = some (.of call s) := by
  cases h with
  | ended hends hnow => rfl
  | again hrepeats hrest => rfl

theorem length_pos (h : Tries op call deadline made s trials result s') : 0 < trials.length := by
  have hhead := h.head
  cases trials with
  | nil => cases hhead
  | cons t trials => exact Nat.zero_lt_succ _

theorem getLast?_cons (h : Tries op call deadline made s trials result s') (t : Trial σ α) :
    (t :: trials).getLast? = trials.getLast? := by
  cases trials with
  | nil => exact absurd h.length_pos (Nat.lt_irrefl 0)
  | cons u trials => exact List.getLast?_cons_cons

theorem made_of (h : Tries op call deadline made s trials result s') :
    ∀ t ∈ trials, t = .of call t.before := by
  induction h with
  | ended hends hnow => exact List.forall_mem_singleton.mpr rfl
  | again hrepeats hrest ih => exact List.forall_mem_cons.mpr ⟨rfl, ih⟩

/-- A trial is followed by another one exactly if it calls for it. -/
theorem again_iff (h : Tries op call deadline made s trials result s') (k : Nat) (t : Trial σ α)
    (ht : trials[k]? = some t) : k + 1 < trials.length ↔ op.Repeats deadline (made + k) t := by
  induction h generalizing k with
  | ended hends hnow =>
    cases k with
    | zero =>
      cases ht
      simp [hends]
    | succ k => cases ht
  | again hrepeats hrest ih =>
    cases k with
    | zero =>
      cases ht
      have hpos := hrest.length_pos
      simp [hrepeats, hpos]
    | succ k =>
      have hrest := ih k ht
      rw [List.length_cons, Nat.add_lt_add_iff_right, hrest, Nat.add_right_comm, Nat.add_assoc]

theorem sleeps (h : Tries op call deadline made s trials result s') (k : Nat) (t u : Trial σ α)
    (ht : trials[k]? = some t) (hu : trials[k + 1]? = some u) :
    u.before = sleepFor (op.waitAfter (made + k)) (op.note t.after) := by
  induction h generalizing k with
  | ended hends hnow => cases hu
  | again hrepeats hrest ih =>
    cases k with
    | zero =>
      rw [List.getElem?_cons_succ, ← List.head?_eq_getElem?, hrest.head] at hu
      cases ht
      cases hu
      rfl
    | succ k =>
      have hrest := ih k ht hu
      rwa [Nat.add_right_comm, Nat.add_assoc] at hrest

theorem result_eq (h : Tries op call deadline made s trials result s') (t : Trial σ α)
    (ht : trials.getLast? = some t) : result = op.verdict deadline (made + (trials.length - 1)) t := by
  induction h with
  | ended hends hnow =>
    cases ht
    rfl
  | again hrepeats hrest ih =>
    rw [hrest.getLast?_cons] at ht
    have hpos := hrest.length_pos
    rw [ih ht, List.length_cons]
    congr 1
    omega

/-- A result is the value of the first trial that has one. -/
theorem ok_iff (h : Tries op call deadline made s trials result s') (a : α) :
    result = .ok a ↔ trials.findSome? (fun t => t.outcome.toOption) = some a := by
  induction h with
  | @ended made s s' hends hnow =>
    rw [List.findSome?_singleton]
    unfold Operation.verdict
    split
    · rename_i value hvalue
      rw [Operation.eq_ok_of_success hvalue, Except.ok.injEq]
      exact Option.some_inj.symm
    · rename_i f hf
      have houtcome : ∃ e, (Trial.of call s).outcome = .error e := by
        cases ho : (Trial.of call s).outcome with
        | error e => exact ⟨e, rfl⟩
        | ok value =>
          rw [ho] at hf
          cases hf
      obtain ⟨e, he⟩ := houtcome
      rw [he]
      simp [Except.toOption]
    · rename_i last hlast
      rw [(isTemporary_of_transient hlast).1]
      split <;> simp [Except.toOption]
  | again hrepeats hrest ih =>
    obtain ⟨⟨last, hlast⟩, -⟩ := hrepeats
    rw [ih, List.findSome?_cons, (isTemporary_of_transient hlast).1]
    rfl

/-! ### When trials are made -/

theorem now_sleepFor (hset : ∀ (s : σ) c, Timed.clock (Timed.setClock s c) = c) (d : Nanos) (s : σ) :
    now (sleepFor d s) = now s + d := by
  unfold now sleepFor
  rw [hset]
  rfl

/-- The clock after the wait that follows a trial. -/
theorem now_next (htimely : Timely op call) (made : Nat) (s : σ) :
    now (sleepFor (op.waitAfter made) (op.note (Trial.of call s).after)) =
      now (Trial.of call s).after + op.waitAfter made := by
  rw [now_sleepFor htimely.set, htimely.note]

theorem le_now (h : Tries op call deadline made s trials result s') (htimely : Timely op call) :
    ∀ t ∈ trials, now s ≤ now t.before ∧ now t.before ≤ now t.after := by
  induction h with
  | ended hends hnow =>
    exact List.forall_mem_singleton.mpr ⟨Nat.le_refl _, htimely.call _⟩
  | @again made s s' trials result hrepeats hrest ih =>
    refine List.forall_mem_cons.mpr ⟨⟨Nat.le_refl _, htimely.call _⟩, fun t ht => ?_⟩
    obtain ⟨hstart, hend⟩ := ih t ht
    rw [now_next htimely] at hstart
    exact ⟨Nat.le_trans (htimely.call s) (Nat.le_trans (Nat.le_add_right ..) hstart), hend⟩

theorem now_lt (h : Tries op call deadline made s trials result s') (htimely : Timely op call)
    (hs : now s < deadline) : ∀ t ∈ trials, now t.before < deadline := by
  induction h with
  | ended hends hnow => exact List.forall_mem_singleton.mpr hs
  | again hrepeats hrest ih =>
    refine List.forall_mem_cons.mpr ⟨hs, ih ?_⟩
    rw [now_next htimely]
    exact hrepeats.2.1

theorem now_last (h : Tries op call deadline made s trials result s') (htimely : Timely op call)
    (t : Trial σ α) (ht : trials.getLast? = some t) : now s' = now t.after := by
  induction h with
  | ended hends hnow =>
    cases ht
    obtain rfl | rfl := hnow
    · rfl
    · exact htimely.note _
  | again hrepeats hrest ih =>
    rw [hrest.getLast?_cons] at ht
    exact ih ht

end Tries

/-! ## Enough fuel -/

/-- Every repetition either brings the deadline nearer or doubles a wait that is still too short to. -/
theorem fuel_repeats {deadline fuel made t t' wait : Nat} (h : deadline + (93 - made) ≤ t + (fuel + 1))
    (hcall : t ≤ t') (hwait : 93 ≤ made → 1 ≤ wait) :
    deadline + (93 - (made + 1)) ≤ t' + wait + fuel := by
  omega

section

variable {op : Operation σ} {call : Act σ α}

theorem repeated_ended {deadline : Nanos} {made : Nat} {s : σ}
    (hends : ¬ op.Repeats deadline made (.of call s)) (fuel : Nat) (log : List (Trial σ α)) :
    ∃ s', op.recorded.repeated (recording call) deadline fuel made ⟨s, log⟩ =
        (op.verdict deadline made (.of call s), ⟨s', log ++ [.of call s]⟩) ∧
      (s' = (Trial.of call s).after ∨ s' = op.note (Trial.of call s).after) := by
  have hexec : (recording call).exec ⟨s, log⟩ =
      ((Trial.of call s).outcome, ⟨(Trial.of call s).after, log ++ [.of call s]⟩) := rfl
  unfold Operation.repeated Operation.verdict
  rw [hexec]
  dsimp only
  cases hc : Attempt.classify (Trial.of call s).outcome with
  | success value => exact ⟨_, rfl, .inl rfl⟩
  | permanent f => exact ⟨_, rfl, .inl rfl⟩
  | transient last =>
    dsimp only
    by_cases hwait : deadline ≤ now (Trial.of call s).after + op.waitAfter made
    · rw [if_pos hwait]
      exact ⟨_, if_pos hwait, .inl rfl⟩
    · have hinterrupted : op.interrupted (op.note (Trial.of call s).after) = true := by
        by_contra hnot
        exact hends ⟨⟨last, hc⟩, Nat.lt_of_not_le hwait, Bool.eq_false_iff.mpr hnot⟩
      rw [if_neg hwait]
      exact ⟨_, (if_neg hwait).trans (if_pos hinterrupted), .inr rfl⟩

/-- What follows a trial that calls for another one: that one, as long as there is fuel. -/
theorem repeated_of_repeats {deadline : Nanos} {made : Nat} {s : σ}
    (hrepeats : op.Repeats deadline made (.of call s)) (fuel : Nat) (log : List (Trial σ α)) :
    ∃ last, op.recorded.repeated (recording call) deadline fuel made ⟨s, log⟩ =
      match fuel with
      | 0 => (.error (op.endless last), ⟨op.note (Trial.of call s).after, log ++ [.of call s]⟩)
      | fuel + 1 => op.recorded.repeated (recording call) deadline fuel (made + 1)
          ⟨sleepFor (op.waitAfter made) (op.note (Trial.of call s).after), log ++ [.of call s]⟩ := by
  obtain ⟨⟨last, hc⟩, hwait, hinterrupted⟩ := hrepeats
  have hexec : (recording call).exec ⟨s, log⟩ =
      ((Trial.of call s).outcome, ⟨(Trial.of call s).after, log ++ [.of call s]⟩) := rfl
  refine ⟨last, ?_⟩
  rw [Operation.repeated, hexec]
  dsimp only
  rw [hc]
  dsimp only
  refine (if_neg (Nat.not_le_of_lt hwait)).trans ((if_neg ?_).trans ?_)
  · exact Bool.eq_false_iff.mp hinterrupted
  · cases fuel <;> rfl

theorem repeated_again {deadline : Nanos} {made : Nat} {s : σ}
    (hrepeats : op.Repeats deadline made (.of call s)) (fuel : Nat) (log : List (Trial σ α)) :
    op.recorded.repeated (recording call) deadline (fuel + 1) made ⟨s, log⟩ =
      op.recorded.repeated (recording call) deadline fuel (made + 1)
        ⟨sleepFor (op.waitAfter made) (op.note (Trial.of call s).after), log ++ [.of call s]⟩ := by
  obtain ⟨_, hexec⟩ := repeated_of_repeats hrepeats (fuel + 1) log
  exact hexec

/-- With enough fuel an operation runs until a trial does not call for another one. -/
theorem repeated_tries (htimely : Timely op call) (hwait : ∀ k, 93 ≤ k → 1 ≤ op.waitAfter k)
    (deadline fuel made : Nat) (s : σ) (log : List (Trial σ α))
    (hfuel : deadline + (93 - made) ≤ now s + fuel) :
    ∃ trials result s', op.recorded.repeated (recording call) deadline fuel made ⟨s, log⟩ =
      (result, ⟨s', log ++ trials⟩) ∧ Tries op call deadline made s trials result s' := by
  induction fuel generalizing made s log with
  | zero =>
    have hends : ¬ op.Repeats deadline made (.of call s) := by
      rintro ⟨-, hlt, -⟩
      have hcall : now s ≤ now (Trial.of call s).after := htimely.call s
      exact Nat.lt_irrefl deadline (Nat.lt_of_le_of_lt
        (Nat.le_trans (Nat.le_trans (Nat.le_add_right ..) hfuel)
          (Nat.le_trans hcall (Nat.le_add_right ..))) hlt)
    obtain ⟨s', hexec, hnow⟩ := repeated_ended hends 0 log
    exact ⟨_, _, s', hexec, .ended hends hnow⟩
  | succ fuel ih =>
    by_cases hrepeats : op.Repeats deadline made (.of call s)
    · have hnext := fuel_repeats hfuel (htimely.call s) (hwait made)
      obtain ⟨trials, result, s', hexec, htries⟩ := ih (made + 1)
        (sleepFor (op.waitAfter made) (op.note (Trial.of call s).after)) (log ++ [.of call s])
        (by rw [Tries.now_next htimely]; exact hnext)
      refine ⟨_, result, s', ?_, .again hrepeats htries⟩
      rw [repeated_again hrepeats, hexec, List.append_assoc]
      rfl
    · obtain ⟨s', hexec, hnow⟩ := repeated_ended hrepeats (fuel + 1) log
      exact ⟨_, _, s', hexec, .ended hrepeats hnow⟩

/-! ## The schedule -/

/-- A wait that ends before the deadline has not been cut short. -/
theorem waitAfter_eq {t : Trial σ α} {s : σ} {k : Nat} (hregular : op.Regular)
    (hsteady : op.policy.jitter.isZero = true) (hle : now s ≤ now t.after)
    (hrepeats : op.Repeats (now s + op.budget) k t) : op.waitAfter k = op.policy.baseWait * 2 ^ k := by
  have hwait : op.waitAfter k = op.policy.nominal k := RetryPolicy.wait_of_isZero hsteady ..
  have hbudget : op.waitAfter k < op.budget := by
    have hlt := hrepeats.2.1
    exact Nat.lt_of_add_lt_add_left (Nat.lt_of_le_of_lt (Nat.add_le_add_right hle _) hlt)
  rw [hwait] at hbudget ⊢
  exact RetryPolicy.nominal_eq (Nat.lt_of_lt_of_le hbudget hregular.longest)

theorem verdict_temporary {deadline : Nanos} {k : Nat} {t : Trial σ α} {f : BackendFailure}
    (h : op.verdict deadline k t = .error f) :
    (Failure.operation op.name f).isTemporary = true ↔ op.GivesUp deadline k t := by
  unfold Operation.verdict at h
  split at h
  · cases h
  · rename_i f' hf
    cases h
    rw [operation_permanent hf]
    constructor
    · intro h
      cases h
    · rintro ⟨⟨last, hlast⟩, -⟩
      rw [hf] at hlast
      cases hlast
  · rename_i last hlast
    split at h
    · rename_i hwait
      cases h
      have htemporary := operation_exhausted op (isTemporary_of_transient hlast).2 (k + 1) op.name
      exact ⟨fun _ => ⟨⟨last, hlast⟩, hwait⟩, fun _ => htemporary⟩
    · rename_i hwait
      cases h
      constructor
      · intro h
        cases h
      · intro hgives
        exact absurd hgives.2 hwait

theorem keepsSchedule_of_tries {s s' : σ} {trials : List (Trial σ α)} {result : Except BackendFailure α}
    (hregular : op.Regular) (htimely : Timely op call)
    (h : Tries op call (now s + op.budget) 0 s trials result s') :
    KeepsSchedule op call s trials result s' where
  made := h.made_of
  first := by
    rw [h.head]
    rfl
  again k t ht := by
    have hagain := h.again_iff k t ht
    rwa [Nat.zero_add] at hagain
  waits k t u ht hu := by
    have hsleeps := h.sleeps k t u ht hu
    rwa [Nat.zero_add] at hsleeps
  doubling hsteady k hk := by
    have ht : trials[k]? = some trials[k] := List.getElem?_eq_getElem (Nat.lt_of_succ_lt hk)
    obtain ⟨hstart, hend⟩ := h.le_now htimely _ (List.mem_of_getElem? ht)
    have hrepeats := (h.again_iff k _ ht).mp hk
    rw [Nat.zero_add] at hrepeats
    exact waitAfter_eq hregular hsteady (Nat.le_trans hstart hend) hrepeats
  early := h.now_lt htimely (Nat.lt_add_of_pos_right hregular.budget)
  elapsed t ht := by
    have hmem := List.mem_of_getLast? ht
    have hlt := h.now_lt htimely (Nat.lt_add_of_pos_right hregular.budget) t hmem
    have hlast := h.now_last htimely t ht
    obtain ⟨hstart, hend⟩ := h.le_now htimely t hmem
    rw [hlast]
    have harith (x y z b : Nat) (hxy : x ≤ y) (hyz : y ≤ z) (hlt : y < x + b) : z - x < b + (z - y) := by
      omega
    exact harith _ _ _ _ hstart hend hlt
  verdict t ht := by
    have hresult := h.result_eq t ht
    rwa [Nat.zero_add] at hresult
  value := h.ok_iff
  temporary f hf := by
    obtain ⟨t, ht⟩ : ∃ t, trials.getLast? = some t :=
      ⟨_, List.getLast?_eq_some_getLast (List.ne_nil_of_length_pos h.length_pos)⟩
    have hresult := h.result_eq t ht
    rw [Nat.zero_add, hf] at hresult
    rw [verdict_temporary hresult.symm]
    constructor
    · intro hgives
      exact ⟨t, ht, hgives⟩
    · rintro ⟨u, hu, hgives⟩
      rw [ht] at hu
      cases hu
      exact hgives

theorem shows_recording (op : Operation σ) :
    Operation.Shows (Recorded.base (α := α)) op.recorded op :=
  ⟨rfl, rfl, rfl, rfl, fun _ => rfl, fun _ => rfl, fun _ => rfl, fun _ _ => rfl⟩

/-- Recording trials changes nothing of an operation. -/
theorem Operation.direct_of_recorded {op : Operation σ} {call : Act σ α} {s s' : σ} {log trials : List (Trial σ α)}
    {result : Except BackendFailure α}
    (h : op.recorded.direct (recording call) ⟨s, log⟩ = (result, ⟨s', trials⟩)) :
    op.direct call s = (result, s') := by
  have hcall : (recording call).Shows Recorded.base call := fun _ => rfl
  have hdirect := (shows_recording op).direct hcall ⟨s, log⟩
  rwa [h] at hdirect

/-! ## The last trial -/

/-- What a last trial comes to: its verdict, or there is no fuel left for the next trial. -/
inductive Operation.Concludes (op : Operation σ) (deadline : Nanos) (k : Nat) (t : Trial σ α) :
    Except BackendFailure α → Prop where
  | ended : op.Concludes deadline k t (op.verdict deadline k t)
  | endless (hrepeats : op.Repeats deadline k t) (last : Failure) :
      op.Concludes deadline k t (.error (op.endless last))

/-- An operation has a result if its last trial has it. -/
theorem Operation.Concludes.eq_ok_iff {deadline : Nanos} {k : Nat} {t : Trial σ α}
    {result : Except BackendFailure α} (h : op.Concludes deadline k t result) (a : α) :
    result = .ok a ↔ t.outcome = .ok a := by
  cases h with
  | ended =>
    unfold verdict
    split
    · rename_i value hvalue
      rw [eq_ok_of_success hvalue, Except.ok.injEq, Except.ok.injEq]
    · rename_i f hf
      obtain ⟨e, he⟩ := Attempt.error_of_permanent hf
      simp [he]
    · rename_i last hlast
      rw [(isTemporary_of_transient hlast).1]
      split <;> simp
  | endless hrepeats last =>
    obtain ⟨e, he⟩ := hrepeats.1
    simp [(isTemporary_of_transient he).1]

/-- Of the trials of an operation only the last one is not followed by another, and it decides. -/
theorem repeated_concludes (op : Operation σ) (call : Act σ α) (deadline : Nanos) (fuel made : Nat)
    (s : σ) (log : List (Trial σ α)) :
    ∃ earlier last result s', op.recorded.repeated (recording call) deadline fuel made ⟨s, log⟩ =
        (result, ⟨s', log ++ (earlier ++ [.of call last])⟩) ∧
      (∀ t ∈ earlier, t = .of call t.before ∧ t.IsTransient) ∧
      op.Concludes deadline (made + earlier.length) (.of call last) result := by
  induction fuel generalizing made s log with
  | zero =>
    by_cases hrepeats : op.Repeats deadline made (.of call s)
    · obtain ⟨last, hexec⟩ := repeated_of_repeats hrepeats 0 log
      exact ⟨[], s, _, _, hexec, by simp, .endless hrepeats last⟩
    · obtain ⟨s', hexec, -⟩ := repeated_ended hrepeats 0 log
      exact ⟨[], s, _, s', hexec, by simp, .ended⟩
  | succ fuel ih =>
    by_cases hrepeats : op.Repeats deadline made (.of call s)
    · obtain ⟨earlier, last, result, s', hexec, hearlier, hconcludes⟩ := ih (made + 1)
        (sleepFor (op.waitAfter made) (op.note (Trial.of call s).after)) (log ++ [.of call s])
      refine ⟨.of call s :: earlier, last, result, s', ?_,
        List.forall_mem_cons.mpr ⟨⟨rfl, hrepeats.1⟩, hearlier⟩, ?_⟩
      · rw [repeated_again hrepeats, hexec, List.append_assoc]
        rfl
      · rw [List.length_cons, Nat.add_comm earlier.length, ← Nat.add_assoc]
        exact hconcludes
    · obtain ⟨s', hexec, -⟩ := repeated_ended hrepeats (fuel + 1) log
      exact ⟨[], s, _, s', hexec, by simp, .ended⟩

/-- The trials of an operation and its result, whatever its policy is. -/
structure Operation.Ends (op : Operation σ) (call : Act σ α) (s : σ) (trials : List (Trial σ α))
    (result : Except BackendFailure α) : Prop where
  /-- Every trial is one of the call. -/
  made : ∀ t ∈ trials, t = .of call t.before
  /-- Without a budget there is no trial, -/
  untried : trials = [] ↔ op.budget = 0
  refused : trials = [] → result = .error (.permanent "total wait time must be positive" none)
  /-- and otherwise the last one decides, after others that were all transient. -/
  transient : ∀ t ∈ trials.dropLast, t.IsTransient
  concludes : ∀ t, trials.getLast? = some t →
    op.Concludes (now s + op.budget) (trials.length - 1) t result

theorem Operation.Ends.eq_ok_iff {op : Operation σ} {call : Act σ α} {s : σ} {trials : List (Trial σ α)}
    {result : Except BackendFailure α} (h : op.Ends call s trials result) (a : α) :
    result = .ok a ↔ ∃ t, trials.getLast? = some t ∧ t.outcome = .ok a := by
  cases hlast : trials.getLast? with
  | none => simp [h.refused (List.getLast?_eq_none_iff.mp hlast)]
  | some t =>
    rw [(h.concludes t hlast).eq_ok_iff]
    simp

theorem Operation.direct_ends (op : Operation σ) (call : Act σ α) (s : σ) :
    ∃ trials result s', op.recorded.direct (recording call) ⟨s, []⟩ = (result, ⟨s', trials⟩) ∧
      op.direct call s = (result, s') ∧ op.Ends call s trials result := by
  by_cases hbudget : op.budget = 0
  · have hrecorded : op.recorded.direct (recording call) ⟨s, []⟩ =
        (.error (.permanent "total wait time must be positive" none), ⟨s, []⟩) := if_pos hbudget
    exact ⟨[], _, s, hrecorded, direct_of_recorded hrecorded,
      { made := by simp
        untried := by simp [hbudget]
        refused := fun _ => rfl
        transient := by simp
        concludes := by simp }⟩
  · obtain ⟨earlier, last, result, s', hrepeated, hearlier, hconcludes⟩ :=
      repeated_concludes op call (now s + op.budget) (enough op.budget) 0 s []
    have hrecorded : op.recorded.direct (recording call) ⟨s, []⟩ =
        (result, ⟨s', earlier ++ [.of call last]⟩) := (if_neg hbudget).trans hrepeated
    rw [Nat.zero_add] at hconcludes
    refine ⟨_, result, s', hrecorded, direct_of_recorded hrecorded, ?_⟩
    exact
      { made := List.forall_mem_append.mpr ⟨fun t ht => (hearlier t ht).1, List.forall_mem_singleton.mpr rfl⟩
        untried := by simp [hbudget]
        refused := by simp
        transient := fun t ht => (hearlier t (by simpa using ht)).2
        concludes := by simpa using hconcludes }

/-- With a budget an operation is run as it is without its name. -/
theorem Operation.run_exec {op : Operation σ} {call : Act σ α} {s s' : σ} {result : Except BackendFailure α}
    (hbudget : op.budget ≠ 0) (h : op.direct call s = (result, s')) :
    (op.run call).exec s = (result.mapError (.operation op.name), s') := by
  unfold run
  rw [Act.exec_of, if_neg hbudget, h]
  cases result <;> rfl

/-- The trials of an operation that is named when it fails. -/
theorem Operation.run_ends (op : Operation σ) (call : Act σ α) (s : σ) :
    ∃ trials result o s', (op.recorded.run (recording call)).exec ⟨s, []⟩ = (o, ⟨s', trials⟩) ∧
      (op.run call).exec s = (o, s') ∧ op.Ends call s trials result ∧
      ∀ a, o = .ok a ↔ result = .ok a := by
  obtain ⟨trials, result, s', hrecorded, hdirect, hends⟩ := op.direct_ends call s
  by_cases hbudget : op.budget = 0
  · have hunchanged : (result, (⟨s', trials⟩ : Recorded σ α)) =
        (.error (.permanent "total wait time must be positive" none), ⟨s, []⟩) :=
      hrecorded.symm.trans (if_pos hbudget)
    cases hunchanged
    exact ⟨[], _, .error (.invalid "total wait time must be positive"), s, if_pos hbudget, if_pos hbudget,
      hends, by simp⟩
  · refine ⟨trials, result, _, s', run_exec hbudget hrecorded, run_exec hbudget hdirect, hends, fun a => ?_⟩
    cases result <;> simp [Except.mapError]

/-! ## The whole schedule -/

/-- An operation keeps its schedule and its deadline: for every call, whatever its outcomes are and
however long it takes, every jitter and whenever the interrupt is set. -/
theorem Operation.keeps_schedule (op : Operation σ) (call : Act σ α) (hregular : op.Regular)
    (htimely : Timely op call) (s : σ) :
    ∃ trials result s', op.recorded.direct (recording call) ⟨s, []⟩ = (result, ⟨s', trials⟩) ∧
      op.direct call s = (result, s') ∧
      (op.run call).exec s = (result.mapError (.operation op.name), s') ∧
      KeepsSchedule op call s trials result s' := by
  have hbudget : op.budget ≠ 0 := Nat.ne_of_gt hregular.budget
  have hwait (k : Nat) (hk : 93 ≤ k) : 1 ≤ op.waitAfter k :=
    RetryPolicy.one_le_wait hregular.baseWait hregular.jitter (fun h => hregular.draw h k) hk
  have hfuel : now s + op.budget + (93 - 0) ≤ now s + enough op.budget := by
    unfold enough
    rw [Nat.add_assoc]
    exact Nat.add_le_add_left (Nat.add_le_add_left (by decide) _) _
  obtain ⟨trials, result, s', hrepeated, htries⟩ :=
    repeated_tries htimely hwait (now s + op.budget) (enough op.budget) 0 s [] hfuel
  have hrecorded : op.recorded.direct (recording call) ⟨s, []⟩ = (result, ⟨s', trials⟩) :=
    (if_neg hbudget).trans hrepeated
  have hdirect := direct_of_recorded hrecorded
  exact ⟨trials, result, s', hrecorded, hdirect, run_exec hbudget hdirect,
    keepsSchedule_of_tries hregular htimely htries⟩

end

/-! ## How long it takes -/

/-- With calls that take no longer than a span an operation is over that span after its deadline. -/
theorem Operation.repeated_time {op : Operation σ} {call : Act σ α} {d : Nanos}
    (hcall : ∀ s, now (call.exec s).2 ≤ now s + d) (hsleep : ∀ d (s : σ), now (sleepFor d s) = now s + d)
    (hnote : ∀ s, now (op.note s) = now s) (deadline fuel made : Nat) (s : σ) (hs : now s ≤ deadline) :
    now (op.repeated call deadline fuel made s).2 ≤ deadline + d := by
  have hover (s : σ) (hs : now s ≤ deadline) : now (call.exec s).2 ≤ deadline + d :=
    Nat.le_trans (hcall s) (Nat.add_le_add_right hs _)
  fun_induction op.repeated call deadline fuel made s with
  | case1 fuel made s r a ha => exact hover s hs
  | case2 fuel made s r f hf => exact hover s hs
  | case3 fuel made s r last hl wait hw => exact hover s hs
  | case4 fuel made s r last hl wait hw s' hi =>
    rw [hnote]
    exact hover s hs
  | case5 made s r last hl wait hw s' hi =>
    rw [hnote]
    exact hover s hs
  | case6 made s r last hl wait hw s' hi fuel ih =>
    refine ih ?_
    rw [hsleep, hnote]
    exact Nat.le_of_lt (Nat.lt_of_not_le hw)

theorem Operation.run_time (op : Operation σ) {call : Act σ α} {d : Nanos}
    (hcall : ∀ s, now (call.exec s).2 ≤ now s + d) (hsleep : ∀ d (s : σ), now (sleepFor d s) = now s + d)
    (hnote : ∀ s, now (op.note s) = now s) (s : σ) :
    now ((op.run call).exec s).2 ≤ now s + (op.budget + d) := by
  have htime := repeated_time hcall hsleep hnote (now s + op.budget) (enough op.budget) 0 s
    (Nat.le_add_right ..)
  rw [Nat.add_assoc] at htime
  unfold run direct
  rw [Act.exec_of]
  split
  · exact Nat.le_add_right ..
  · split
    · rename_i a s' he
      rwa [he] at htime
    · rename_i f s' he
      rwa [he] at htime

/-! ## Rehearsed calls -/

namespace Rehearsal

theorem now_passTime (d : Nanos) (r : Rehearsal) : now (passTime d r) = now r + d := rfl

/-- A rehearsed call takes its time, whatever its script is. -/
theorem timely (name : String) (budget takes : Nanos) (policy : RetryPolicy) (script : List ScriptedCall) :
    Timely (operation name budget policy) (call takes script) where
  set _ _ := rfl
  call r := by
    have hclock : now ((call takes script).exec r).2 = now r + takes := by
      unfold call
      rw [Act.exec_of]
      dsimp only
      split
      · exact now_passTime takes _
      · exact now_passTime takes _
    rw [hclock]
    exact Nat.le_add_right ..
  note _ := rfl

/-- A second for calls that fail twice, with waits of 50 milliseconds and a jitter of a half. -/
def reading : Operation Rehearsal := operation "read" (.ofMillis 1000) ⟨.ofMillis 50, ⟨0x3fe0000000000000⟩⟩

/-- A call of a millisecond that succeeds the third time. -/
def thirdTime : Act Rehearsal Nat :=
  call (.ofMillis 1) [⟨some (.backend (.temporary "busy" none)), false⟩,
    ⟨some (.backend (.temporary "busy" none)), false⟩, ⟨none, false⟩]

theorem regular_reading : reading.Regular where
  budget := by decide
  longest := by decide
  baseWait := by decide
  jitter := by decide +kernel
  draw _ _ := by
    change reading.policy.least.units ≤ (Binary64.ofNat 1).units
    decide +kernel

end Rehearsal

theorem keeps_schedule_rehearsed : Rehearsal.reading.Regular ∧ Timely Rehearsal.reading Rehearsal.thirdTime ∧
    ∃ trials result s',
      Rehearsal.reading.recorded.direct (recording Rehearsal.thirdTime) ⟨.start false, []⟩ =
        (result, ⟨s', trials⟩) ∧
      Rehearsal.reading.direct Rehearsal.thirdTime (.start false) = (result, s') ∧
      (Rehearsal.reading.run Rehearsal.thirdTime).exec (.start false) =
        (result.mapError (.operation "read"), s') ∧
      KeepsSchedule Rehearsal.reading Rehearsal.thirdTime (.start false) trials result s' :=
  ⟨Rehearsal.regular_reading, Rehearsal.timely ..,
    Operation.keeps_schedule _ _ Rehearsal.regular_reading (Rehearsal.timely ..) _⟩

/-- Three trials, and two waits between them. -/
example : let r := Rehearsal.reading.recorded.direct (recording Rehearsal.thirdTime) ⟨.start false, []⟩
    r.1.toOption = some 3 ∧ r.2.trials.map (fun t => now t.before) = [0, 51000000, 152000000] := by
  decide +kernel

end RowGraph
