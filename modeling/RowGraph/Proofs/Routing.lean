import RowGraph.Proofs.JointCalls

/-!
# The way of mutations

All mutations of a joint transaction are forwarded in one and the same inner transaction: the consistent
one if a lock was asked for in time, were it refused, and the inconsistent one otherwise.  The argument is
one invariant (`Routed`): a lock is in time only before anything is forwarded, from then on the attempt is
on record, and once mutating has begun the record does not change.

* `routing_fixed`: the statement for every run, together with what a failed verification leaves behind.
-/

namespace RowGraph

variable {σ S T L : Type}

/-- The request finds that it must verify, and the verification fails. -/
def Served.Unverified [Timed σ] (c : Checking σ S T L) (m : Served σ S T L) (f : Failure) : Prop :=
  m.request.isChecked = true ∧ m.before.1.ensureActive = .ok () ∧
    m.before.1.mutationsStarted = false ∧ ((c.noted.verify m.before.1).exec m.before.2).1 = .error f

/-- Did the request forward a mutation? -/
def Served.Forwards (m : Served σ S T L) : Prop := m.after.2.forwarded ≠ m.before.2.forwarded

/-- Was a lock asked for in time, before the first mutation was forwarded? -/
def AskedFirst (requests : List (Served σ S T L)) : Prop :=
  ∃ m ∈ requests, m.AsksInTime ∧ m.before.2.forwarded = []

/-- Which way mutations go, and what happens where they are not let through. -/
structure RoutedOnce [Timed σ] (c : Checking σ S T L) (inconsistent consistent : T)
    (requests : List (Served σ S T L)) : Prop where
  /-- With a lock asked for every mutation is forwarded in the consistent transaction. -/
  asked : AskedFirst requests → ∀ m ∈ requests, ∀ tx ∈ m.after.2.forwarded, tx = consistent
  /-- Without one every mutation is forwarded in the inconsistent transaction. -/
  unasked : ¬ AskedFirst requests → ∀ m ∈ requests, ∀ tx ∈ m.after.2.forwarded, tx = inconsistent
  /-- A request that cannot be verified fails and forwards nothing, and mutating has not begun. -/
  refused : ∀ m ∈ requests, ∀ f, m.Unverified c f →
    m.outcome = .error f ∧ ¬ m.Forwards ∧ m.after.1.mutationsStarted = false
  /-- The next request to be checked verifies again before it forwards a mutation. -/
  again : ∀ past m between n rest f, requests = past ++ m :: (between ++ n :: rest) →
    m.Unverified c f → (∀ x ∈ between, x.request.isChecked = false) → n.request.isChecked = true →
    n.before.1.mutationsStarted = false ∧
      (n.Forwards → ((c.noted.verify n.before.1).exec n.before.2).1 = .ok ())

/-! ## What every request keeps -/

/-- The transaction and what it has forwarded agree with the requests served so far. -/
structure Routed (inconsistent consistent : T) (past : List (Served σ S T L))
    (p : Joint S T L × Noted σ T) : Prop where
  inconsistent : p.1.inconsistent = inconsistent
  consistent : p.1.consistent = consistent
  attempted : p.1.lockAttempted = true ↔ ∃ m ∈ past, m.AsksInTime
  /-- What is expected comes with an attempt. -/
  expected : p.1.lockAttempted = false → p.1.expected.isEmpty = true
  started : p.2.forwarded ≠ [] → p.1.mutationsStarted = true
  forwarded : ∀ tx ∈ p.2.forwarded, tx = p.1.writer
  /-- Locks are asked for in time only before anything is forwarded. -/
  inTime : ∀ m ∈ past, m.AsksInTime → m.before.2.forwarded = []
  noted : ∀ m ∈ past, ∀ tx ∈ m.after.2.forwarded, tx ∈ p.2.forwarded

variable {inconsistent consistent : T} {past : List (Served σ S T L)} {p : Joint S T L × Noted σ T}
  {m : Served σ S T L}

theorem routed_new (o : TxOptions) (s : σ) :
    Routed (σ := σ) (S := S) (L := L) inconsistent consistent []
      (.new o inconsistent consistent, ⟨s, []⟩) where
  inconsistent := rfl
  consistent := rfl
  attempted := by simp [Joint.new]
  expected _ := rfl
  started h := absurd rfl h
  forwarded := by simp
  inTime := by simp
  noted := by simp

namespace Routed

theorem hasAnyLocks (h : Routed inconsistent consistent past p) :
    p.1.hasAnyLocks = p.1.lockAttempted := by
  unfold Joint.hasAnyLocks
  cases ha : p.1.lockAttempted with
  | true => rfl
  | false => rw [h.expected ha]; rfl

/-- The way of mutations, read off the requests served so far. -/
theorem writer (h : Routed inconsistent consistent past p) :
    ((∃ m ∈ past, m.AsksInTime) → p.1.writer = consistent) ∧
      (¬ (∃ m ∈ past, m.AsksInTime) → p.1.writer = inconsistent) := by
  unfold Joint.writer
  rw [h.hasAnyLocks, h.inconsistent, h.consistent, ← h.attempted]
  exact ⟨fun ha => if_pos ha, fun ha => if_neg ha⟩

/-- Nothing was forwarded before a lock that is asked for in time. -/
theorem forwarded_eq_nil (h : Routed inconsistent consistent past m.before)
    (hasks : m.AsksInTime) : m.before.2.forwarded = [] := by
  by_contra hne
  have := h.started hne
  rw [hasks.2.2] at this
  cases this

/-- A request that asks for no lock in time and leaves the record of locks as it is. -/
theorem step_of_unasked (h : Routed inconsistent consistent past m.before)
    (hasks : ¬ m.AsksInTime) (hinconsistent : m.after.1.inconsistent = m.before.1.inconsistent)
    (hconsistent : m.after.1.consistent = m.before.1.consistent)
    (hattempted : m.after.1.lockAttempted = m.before.1.lockAttempted)
    (hexpected : m.after.1.expected = m.before.1.expected)
    (hstarted : m.after.2.forwarded ≠ [] → m.after.1.mutationsStarted = true)
    (hforwarded : ∀ tx ∈ m.after.2.forwarded, tx = m.before.1.writer)
    (hnoted : ∀ tx ∈ m.before.2.forwarded, tx ∈ m.after.2.forwarded) :
    Routed inconsistent consistent (past ++ [m]) m.after where
  inconsistent := hinconsistent.trans h.inconsistent
  consistent := hconsistent.trans h.consistent
  attempted := by
    rw [hattempted, h.attempted]
    simp [hasks, or_and_right, exists_or]
  expected := by
    rw [hattempted, hexpected]
    exact h.expected
  started := hstarted
  forwarded := by
    have hwriter : m.after.1.writer = m.before.1.writer := by
      unfold Joint.writer Joint.hasAnyLocks
      rw [hattempted, hexpected, hinconsistent, hconsistent]
    rw [hwriter]
    exact hforwarded
  inTime := by
    simp only [List.forall_mem_append, List.forall_mem_singleton]
    exact ⟨h.inTime, fun ha => absurd ha hasks⟩
  noted := by
    simp only [List.forall_mem_append, List.forall_mem_singleton]
    exact ⟨fun x hx tx htx => hnoted tx (h.noted x hx tx htx), fun _ htx => htx⟩

/-- A lock that is asked for in time: the attempt is on record, and nothing was forwarded yet. -/
theorem step_of_asked (h : Routed inconsistent consistent past m.before)
    (hasks : m.AsksInTime) (hinconsistent : m.after.1.inconsistent = m.before.1.inconsistent)
    (hconsistent : m.after.1.consistent = m.before.1.consistent) (hattempted : m.after.1.lockAttempted = true)
    (hforwarded : m.after.2.forwarded = m.before.2.forwarded) :
    Routed inconsistent consistent (past ++ [m]) m.after := by
  have hnil := h.forwarded_eq_nil hasks
  have hnil' : m.after.2.forwarded = [] := by rw [hforwarded, hnil]
  have hpast : ∀ x ∈ past, ∀ tx ∈ x.after.2.forwarded, tx ∈ m.after.2.forwarded := by
    rw [hforwarded]
    exact h.noted
  refine ⟨hinconsistent.trans h.inconsistent, hconsistent.trans h.consistent, ?_, ?_, ?_, ?_, ?_, ?_⟩
  · rw [hattempted]
    simp only [true_iff]
    exact ⟨m, by simp, hasks⟩
  · rw [hattempted]
    intro h
    cases h
  · exact fun hne => absurd hnil' hne
  · rw [hnil']
    simp
  · simp only [List.forall_mem_append, List.forall_mem_singleton]
    exact ⟨h.inTime, fun _ => hnil⟩
  · simp only [List.forall_mem_append, List.forall_mem_singleton]
    exact ⟨hpast, fun _ htx => htx⟩

theorem step [Timed σ] {c : Checking σ S T L} (h : Routed inconsistent consistent past m.before)
    (heffect : Effect c m) :
    Routed inconsistent consistent (past ++ [m]) m.after := by
  cases heffect with
  | kept hjoint hforwarded hasks hlock =>
    obtain ⟨state, hjoint⟩ := hjoint
    refine h.step_of_unasked hasks (by rw [hjoint]) (by rw [hjoint]) (by rw [hjoint])
      (by rw [hjoint]) ?_ ?_ ?_
    · rw [hforwarded, hjoint]
      exact h.started
    · rw [hforwarded]
      exact h.forwarded
    · rw [hforwarded]
      exact fun _ htx => htx
  | refused hjoint hforwarded hasks hlock =>
    exact h.step_of_asked hasks (by rw [hjoint]) (by rw [hjoint]) (by rw [hjoint]) hforwarded
  | locked hjoint hforwarded hasks hlock =>
    exact h.step_of_asked hasks (by rw [hjoint]; rfl) (by rw [hjoint]; rfl) (by rw [hjoint]; rfl)
      hforwarded
  | checked hchecked hactive hverified hjoint hforwarded hasks hlock =>
    refine h.step_of_unasked hasks (by rw [hjoint]) (by rw [hjoint]) (by rw [hjoint])
      (by rw [hjoint]) (fun _ => by rw [hjoint]) ?_ ?_
    · intro tx htx
      obtain hf | hf := hforwarded
      · exact h.forwarded tx (hf ▸ htx)
      · rw [hf, List.mem_append, List.mem_singleton] at htx
        exact htx.elim (h.forwarded tx) id
    · intro tx htx
      obtain hf | hf := hforwarded
      · rwa [hf]
      · rw [hf]
        exact List.mem_append_left _ htx

end Routed

variable [Timed σ] {c : Checking σ S T L}

theorem routed_serve [Metered σ] (c : Checking σ S T L) (o : TxOptions) (inconsistent consistent : T) (s : σ)
    (rs : List (JointRequest σ S L)) :
    Routed inconsistent consistent (serve c rs (.new o inconsistent consistent, ⟨s, []⟩))
      (finish c rs (.new o inconsistent consistent, ⟨s, []⟩)) :=
  serve_invariant (routed_new o s) (fun _ _ r h => h.step (effect_served c _ r)) rs

/-! ## Verifying again -/

/-- Only a request that is checked begins to mutate. -/
theorem mutationsStarted_of_unchecked (heffect : Effect c m) (hm : m.request.isChecked = false) :
    m.after.1.mutationsStarted = m.before.1.mutationsStarted := by
  cases heffect with
  | kept hjoint hforwarded hasks hlock =>
    obtain ⟨state, hjoint⟩ := hjoint
    rw [hjoint]
  | refused hjoint hforwarded hasks hlock => rw [hjoint]
  | locked hjoint hforwarded hasks hlock =>
    rw [hjoint]
    rfl
  | checked hchecked hactive hverified hjoint hforwarded hasks hlock =>
    rw [hm] at hchecked
    cases hchecked

theorem finish_mutationsStarted [Metered σ] {rs : List (JointRequest σ S L)}
    (hrs : ∀ x ∈ serve c rs p, x.request.isChecked = false) :
    (finish c rs p).1.mutationsStarted = p.1.mutationsStarted := by
  refine serve_invariant (c := c) (p := p)
    (I := fun past q => (∀ x ∈ past, x.request.isChecked = false) →
      q.1.mutationsStarted = p.1.mutationsStarted) (fun _ => rfl) (fun past q r h hpast => ?_) rs hrs
  simp only [List.forall_mem_append, List.forall_mem_singleton] at hpast
  rw [← h hpast.1]
  exact mutationsStarted_of_unchecked (effect_served c q r) hpast.2

/-- Who forwards a mutation has checked everything, now or before. -/
theorem Effect.of_forwards (h : Effect c m) (hforwards : m.Forwards) :
    m.request.isChecked = true ∧ m.before.1.ensureActive = .ok () ∧
      (m.before.1.mutationsStarted = true ∨
        ((c.noted.verify m.before.1).exec m.before.2).1 = .ok ()) ∧
      m.after.1 = { m.before.1 with mutationsStarted := true } := by
  cases h with
  | kept hjoint hforwarded hasks hlock => exact absurd hforwarded hforwards
  | refused hjoint hforwarded hasks hlock => exact absurd hforwarded hforwards
  | locked hjoint hforwarded hasks hlock => exact absurd hforwarded hforwards
  | checked hchecked hactive hverified hjoint hforwarded hasks hlock =>
    exact ⟨hchecked, hactive, hverified, hjoint⟩

/-- A mutation is forwarded only once everything has been verified. -/
theorem verified_of_forwards (heffect : Effect c m) (hforwards : m.Forwards)
    (hstarted : m.before.1.mutationsStarted = false) :
    ((c.noted.verify m.before.1).exec m.before.2).1 = .ok () := by
  obtain ⟨-, -, hverified, -⟩ := heffect.of_forwards hforwards
  exact hverified.resolve_left (by simp [hstarted])

/-- A request that cannot be verified fails, forwards nothing and does not begin to mutate. -/
theorem refused_of_unverified [Metered σ] {r : JointRequest σ S L} {f : Failure}
    (h : (r.served c p).Unverified c f) : (r.served c p).outcome = .error f ∧
      ¬ (r.served c p).Forwards ∧ (r.served c p).after.1.mutationsStarted = false := by
  obtain ⟨hchecked, hactive, hstarted, hverify⟩ := h
  obtain ⟨houtcome, hjoint, hforwarded⟩ :=
    served_unverified (p := p) (r := r) hchecked hactive hstarted hverify
  refine ⟨houtcome, not_not.mpr hforwarded, ?_⟩
  rw [hjoint]
  exact hstarted

/-- The way of mutations is fixed in every run of a joint transaction, over any backend and any lockers
and whatever others do between its requests. -/
theorem routing_fixed [Metered σ] (c : Checking σ S T L) (o : TxOptions) (inconsistent consistent : T) (s : σ)
    (rs : List (JointRequest σ S L)) :
    RoutedOnce c inconsistent consistent (serve c rs (.new o inconsistent consistent, ⟨s, []⟩)) := by
  have hrouted := routed_serve c o inconsistent consistent s rs
  refine ⟨?_, ?_, ?_, ?_⟩
  · rintro ⟨x, hx, hasks, -⟩ m hm tx htx
    rw [hrouted.forwarded tx (hrouted.noted m hm tx htx)]
    exact hrouted.writer.1 ⟨x, hx, hasks⟩
  · intro hnot m hm tx htx
    rw [hrouted.forwarded tx (hrouted.noted m hm tx htx)]
    refine hrouted.writer.2 ?_
    rintro ⟨x, hx, hasks⟩
    exact hnot ⟨x, hx, hasks, hrouted.inTime x hx hasks⟩
  · intro m hm f hunverified
    obtain ⟨past, rest, hsplit⟩ := List.append_of_mem hm
    obtain ⟨rs₁, r, rs₂, -, rfl, -⟩ := exists_of_serve hsplit
    exact refused_of_unverified hunverified
  · intro past m between n rest f hsplit hunverified hbetween hn
    obtain ⟨rs₁, r, rs₂, -, rfl, hrest⟩ := exists_of_serve hsplit
    obtain ⟨rs₃, r', rs₄, rfl, rfl, -⟩ := exists_of_serve hrest.symm
    have hstarted : (finish c rs₃ _).1.mutationsStarted = false :=
      (finish_mutationsStarted hbetween).trans (refused_of_unverified hunverified).2.2
    exact ⟨hstarted, fun hforwards => verified_of_forwards (effect_served ..) hforwards hstarted⟩

/-- A lock that another owner holds is refused, and a column does not hold what is expected until others
write it: then the mutation is forwarded, in the consistent transaction. -/
example :
    let w : LocalSetup := ⟨Memory.defaultFeatures, 1000, .defaults⟩
    let rows : CheckedStore StoreHandle String := ⟨"rows", ⟨0, "rows"⟩, "rows_lock", 0⟩
    let others (b : Local) : Local :=
      ((w.checking.locks.write "rows_lock" ⟨[1], [1]⟩ 9).exec b).2
    let seven (b : Local) : Local := { b with memory := b.memory.mutate 0 [1] ⟨[⟨[2], [7]⟩], []⟩ }
    (serve w.checking [.meanwhile others, .lock rows [1] [1] none, .lock rows [1] [2] (some [7]),
        .mutate rows [1] ⟨[⟨[3], [0]⟩], []⟩, .meanwhile seven, .mutate rows [1] ⟨[⟨[3], [0]⟩], []⟩]
      (.new .none ⟨1⟩ ⟨2⟩, ⟨.new, []⟩)).map (fun m => (m.outcome.toOption, m.after.2.forwarded)) =
    [(some (), []), (none, []), (some (), []), (none, []), (some (), []), (some (), [⟨2⟩])] := by
  decide +kernel

end RowGraph
