import RowGraph.Proofs.Repetition

/-!
# Failures that an operation reports

An operation that is not named when it fails reports a bare backend failure.  The outcome of a trial is
classified by its innermost backend failure, but what is reported counts as temporary by its own kind.
The two agree where the operation gives up and where a permanent failure is made of the outcome; they do
not where the outcome is a temporary failure with a permanent one inside, which is passed on as it came
(`Operation.direct_reports`, `passed_on_temporary`).
-/

namespace RowGraph

variable {σ α : Type}

/-- The outcome of the trial is `f` itself, temporary by its own kind but not by its innermost failure. -/
def Trial.PassesOn (t : Trial σ α) (f : BackendFailure) : Prop :=
  t.outcome = .error (.backend f) ∧ f.isTemporary = true ∧ f.innermost.isTemporary = false

/-- A permanent outcome is a backend failure as it came, or a permanent one made of the outcome. -/
theorem classify_eq_permanent {o : Outcome α} {f : BackendFailure} (h : Attempt.classify o = .permanent f) :
    (o = .error (.backend f) ∧ f.innermost.isTemporary = false) ∨ f.isTemporary = false := by
  unfold Attempt.classify at h
  split at h
  · cases h
  · split at h
    · cases h
    · rename_i hnot
      split at h
      · cases h
        exact .inl ⟨rfl, Bool.eq_false_iff.mpr hnot⟩
      · cases h
        exact .inr rfl

/-- A backend failure whose innermost one is not temporary is classified as permanent, as it came. -/
theorem classify_of_innermost {f : BackendFailure} (h : f.innermost.isTemporary = false) :
    Attempt.classify (.error (.backend f) : Outcome α) = .permanent f := by
  have hnot : (Failure.backend f).isTemporary = false := h
  simp [Attempt.classify, hnot]

theorem Trial.PassesOn.classify {t : Trial σ α} {f : BackendFailure} (h : t.PassesOn f) :
    Attempt.classify t.outcome = .permanent f := by
  rw [h.1]
  exact classify_of_innermost h.2.2

variable [Timed σ] {op : Operation σ} {call : Act σ α} {deadline : Nanos} {k : Nat} {t : Trial σ α}
  {f : BackendFailure}

/-- The failure that a last trial comes to is temporary if the operation gives up, or if it is the
outcome of the trial, passed on. -/
theorem verdict_reports (h : op.verdict deadline k t = .error f) :
    f.isTemporary = true ↔ op.GivesUp deadline k t ∨ t.PassesOn f := by
  unfold Operation.verdict at h
  split at h
  · cases h
  · rename_i f' hclass
    obtain rfl := Except.error.inj h
    have hstays : ¬ op.GivesUp deadline k t := by
      rintro ⟨⟨last, hlast⟩, -⟩
      rw [hclass] at hlast
      cases hlast
    constructor
    · intro htemporary
      rcases classify_eq_permanent hclass with ⟨houtcome, hinner⟩ | hpermanent
      · exact .inr ⟨houtcome, htemporary, hinner⟩
      · rw [hpermanent] at htemporary
        cases htemporary
    · rintro (hgives | hpasses)
      · exact absurd hgives hstays
      · exact hpasses.2.1
  · rename_i last hclass
    split at h
    · rename_i hwait
      obtain rfl := Except.error.inj h
      exact ⟨fun _ => .inl ⟨⟨last, hclass⟩, hwait⟩, fun _ => rfl⟩
    · rename_i hwait
      obtain rfl := Except.error.inj h
      constructor
      · intro htemporary
        cases htemporary
      · rintro (hgives | hpasses)
        · exact absurd hgives.2 hwait
        · cases hpasses.2.1

theorem Operation.Concludes.reports (h : op.Concludes deadline k t (.error f)) :
    f.isTemporary = true ↔ op.GivesUp deadline k t ∨ t.PassesOn f := by
  generalize hresult : (.error f : Except BackendFailure α) = result at h
  cases h with
  | ended => exact verdict_reports hresult.symm
  | endless hrepeats last =>
    obtain rfl := Except.error.inj hresult
    constructor
    · intro htemporary
      cases htemporary
    · rintro (hgives | hpasses)
      · exact absurd hrepeats.2.1 (Nat.not_lt_of_le hgives.2)
      · cases hpasses.2.1

/-- The failure that an operation reports without its name is temporary if and only if the operation has
given up because of the deadline, or the last outcome is that failure, temporary by its own kind but
not by its innermost one. All outcomes before the last one are transient. -/
theorem Operation.direct_reports (op : Operation σ) (call : Act σ α) (s : σ) :
    ∃ trials result s', op.recorded.direct (recording call) ⟨s, []⟩ = (result, ⟨s', trials⟩) ∧
      op.direct call s = (result, s') ∧
      (∀ t ∈ trials.dropLast, t.IsTransient) ∧
      ∀ f, result = .error f → (f.isTemporary = true ↔ ∃ t, trials.getLast? = some t ∧
        (op.GivesUp (now s + op.budget) (trials.length - 1) t ∨ t.PassesOn f)) := by
  obtain ⟨trials, result, s', hrecorded, hdirect, hends⟩ := op.direct_ends call s
  refine ⟨trials, result, s', hrecorded, hdirect, hends.transient, fun f hf => ?_⟩
  subst hf
  cases hlast : trials.getLast? with
  | none =>
    obtain rfl := Except.error.inj (hends.refused (List.getLast?_eq_none_iff.mp hlast))
    simp [BackendFailure.isTemporary]
  | some t =>
    rw [(hends.concludes t hlast).reports]
    simp

/-- A timeout that was caused by a permanent failure. -/
def Rehearsal.refusal : BackendFailure :=
  .temporary "timed out" (some (.backend (.permanent "schema violation" none)))

/-- A call that fails that way. -/
def Rehearsal.refused : Act Rehearsal Nat :=
  Rehearsal.call 0 [⟨some (.backend Rehearsal.refusal), false⟩]

/-- The outcome of the only trial is classified as permanent, and the failure reported is temporary. -/
theorem passed_on_temporary :
    ∃ t s', Rehearsal.reading.recorded.direct (recording Rehearsal.refused) ⟨.start false, []⟩ =
        (.error Rehearsal.refusal, ⟨s', [t]⟩) ∧
      Attempt.classify t.outcome = .permanent Rehearsal.refusal ∧ Rehearsal.refusal.isTemporary = true := by
  have hinner : Rehearsal.refusal.innermost.isTemporary = false := by
    simp [Rehearsal.refusal, BackendFailure.innermost, Failure.innermost?, BackendFailure.isTemporary]
  have hclass : Attempt.classify (Trial.of Rehearsal.refused (.start false)).outcome =
      .permanent Rehearsal.refusal := classify_of_innermost hinner
  have hends : ¬ Rehearsal.reading.Repeats (now (Rehearsal.start false) + Rehearsal.reading.budget) 0
      (.of Rehearsal.refused (.start false)) := by
    rintro ⟨⟨last, hlast⟩, -⟩
    rw [hclass] at hlast
    cases hlast
  obtain ⟨s', hexec, -⟩ := repeated_ended hends (Operation.enough Rehearsal.reading.budget) []
  refine ⟨_, s', ?_, hclass, rfl⟩
  have hbudget : Rehearsal.reading.budget ≠ 0 := by decide
  refine (if_neg hbudget).trans (hexec.trans ?_)
  simp only [Operation.verdict, hclass, List.nil_append]

end RowGraph
