import RowGraph.Proofs.Outcome

/-!
# Acts on a view of the state

An act on a large state often does what another one does on a view of it: it has the same outcome and
leaves the same to be seen (`Act.Shows`).  The relation is kept by everything that acts are put together
from, repetitions included (`Operation.Shows.run`).
-/

namespace RowGraph

namespace Act

variable {σ τ α β : Type} {view : σ → τ}

/-- An act does what another one does on a view of the state. -/
def Shows (view : σ → τ) (a : Act σ α) (b : Act τ α) : Prop :=
  ∀ s, b.exec (view s) = ((a.exec s).1, view (a.exec s).2)

theorem Shows.bind {a : Act σ α} {b : Act τ α} {f : α → Act σ β} {g : α → Act τ β}
    (h : a.Shows view b) (hf : ∀ x, (f x).Shows view (g x)) : (a >>= f).Shows view (b >>= g) := by
  intro s
  rw [exec_bind, exec_bind, h s]
  cases a.exec s with
  | mk o s' =>
    cases o with
    | error e => rfl
    | ok x => exact hf x s'

theorem shows_ofOutcome (o : Outcome α) : (ofOutcome o).Shows view (ofOutcome o) := fun _ => rfl

theorem shows_pure (a : α) : (pure a : Act σ α).Shows view (pure a) := fun _ => rfl

theorem shows_throw (f : Failure) : (throw f : Act σ α).Shows view (throw f) := fun _ => rfl

theorem Shows.attempt {a : Act σ α} {b : Act τ α} (h : a.Shows view b) : a.attempt.Shows view b.attempt :=
  fun s => by rw [exec_attempt, exec_attempt, h s]

theorem shows_forM {f : β → Act σ PUnit} {g : β → Act τ PUnit} (h : ∀ x, (f x).Shows view (g x))
    (xs : List β) : (xs.forM f).Shows view (xs.forM g) := by
  induction xs with
  | nil => exact shows_pure _
  | cons x xs ih => exact (h x).bind fun _ => ih

theorem shows_mapM {f : β → Act σ α} {g : β → Act τ α} (h : ∀ x, (f x).Shows view (g x))
    (xs : List β) : (xs.mapM f).Shows view (xs.mapM g) := by
  induction xs with
  | nil => exact shows_pure _
  | cons x xs ih =>
    rw [List.mapM_cons, List.mapM_cons]
    exact (h x).bind fun _ => ih.bind fun _ => shows_pure _

end Act

namespace Operation

variable {σ τ α : Type} [Timed σ] [Timed τ] {view : σ → τ} {op : Operation σ} {op' : Operation τ}
  {call : Act σ α} {call' : Act τ α}

/-- The operation is the same on a view of the state. -/
structure Shows (view : σ → τ) (op : Operation σ) (op' : Operation τ) : Prop where
  name : op'.name = op.name
  budget : op'.budget = op.budget
  policy : op'.policy = op.policy
  draw : op'.draw = op.draw
  interrupted : ∀ s, op'.interrupted (view s) = op.interrupted s
  note : ∀ s, op'.note (view s) = view (op.note s)
  now : ∀ s, now (view s) = now s
  sleep : ∀ d s, sleepFor d (view s) = view (sleepFor d s)

theorem Shows.repeated (h : Shows view op op') (hcall : call.Shows view call') (deadline fuel made : Nat) (s : σ) :
    op'.repeated call' deadline fuel made (view s) =
      ((op.repeated call deadline fuel made s).1, view (op.repeated call deadline fuel made s).2) := by
  fun_induction op.repeated call deadline fuel made s with
  | case1 fuel made s r a ha =>
    unfold Operation.repeated
    simp only [hcall s, ha, r]
  | case2 fuel made s r f hf =>
    unfold Operation.repeated
    simp only [hcall s, hf, r]
  | case3 fuel made s r last hl wait hw =>
    unfold Operation.repeated
    simp only [hcall s, hl, h.policy, h.draw, h.now, r]
    rw [if_pos hw]
    simp only [exhausted, h.name]
  | case4 fuel made s r last hl wait hw s' hi =>
    unfold Operation.repeated
    simp only [hcall s, hl, h.policy, h.draw, h.now, r]
    rw [if_neg hw, h.note, h.interrupted, if_pos hi]
  | case5 made s r last hl wait hw s' hi =>
    unfold Operation.repeated
    simp only [hcall s, hl, h.policy, h.draw, h.now, r]
    rw [if_neg hw, h.note, h.interrupted, if_neg hi]
    simp only [endless, h.name, s', r]
  | case6 made s r last hl wait hw s' hi fuel ih =>
    conv_lhs => unfold Operation.repeated
    simp only [hcall s, hl, h.policy, h.draw, h.now, r]
    rw [if_neg hw, h.note, h.interrupted, if_neg hi]
    rw [h.sleep]
    exact ih

theorem Shows.direct (h : Shows view op op') (hcall : call.Shows view call') (s : σ) :
    op'.direct call' (view s) = ((op.direct call s).1, view (op.direct call s).2) := by
  unfold Operation.direct
  rw [h.budget, h.now]
  split
  · rfl
  · exact h.repeated hcall ..

theorem Shows.run (h : Shows view op op') (hcall : call.Shows view call') :
    (op.run call).Shows view (op'.run call') := by
  intro s
  unfold Operation.run
  rw [Act.exec_of, Act.exec_of, h.budget, h.name, h.direct hcall]
  split
  · rfl
  · cases op.direct call s with
    | mk o s' => cases o <;> rfl

end Operation

end RowGraph
