import Mathlib.Data.List.Forall2
import RowGraph.Storage.Retry

/-!
# Outcomes and acts

What a computation that succeeds has done: a sequence succeeds where its parts do, and an act that
runs to an end is read off step by step (`exec_bind`).  `Act.Yields` says of an act that it succeeds
from every state with an invariant, keeps it, and that its result has a property; `Act.Ensures` says the
same of an act that may fail, and `Act.Quiet` of an act that it changes nothing.  `Act.Agree` compares two
acts: from any states with the invariant both fail, or both succeed with related results.
-/

namespace RowGraph

namespace Outcome

variable {α β : Type}

theorem bind_eq_ok {x : Outcome α} {f : α → Outcome β} {b : β} :
    x >>= f = .ok b ↔ ∃ a, x = .ok a ∧ f a = .ok b := by
  cases x with
  | error e => simp [bind, Except.bind]
  | ok a => simp [bind, Except.bind]

theorem bind_eq_error {x : Outcome α} {f : α → Outcome β} {e : Failure} :
    x >>= f = .error e ↔ x = .error e ∨ ∃ a, x = .ok a ∧ f a = .error e := by
  cases x with
  | error e' => simp [bind, Except.bind]
  | ok a => simp [bind, Except.bind]

theorem guard_eq_ok {c : Prop} [Decidable c] {e : Failure} {f : α → Outcome β} {x : Outcome β} {b : β} :
    (if c then throw e >>= f else x) = .ok b ↔ ¬ c ∧ x = .ok b := by
  by_cases h : c
  · simp [h, throw, throwThe, MonadExceptOf.throw, bind, Except.bind]
  · simp [h]

theorem guard_eq {c : Prop} [Decidable c] {e : Failure} {f : α → Outcome β} {x : Outcome β} :
    (if c then throw e >>= f else x) = if c then .error e else x := by
  split <;> rfl

theorem eq_ok_getD {x : Outcome α} (h : x.toOption.isSome) (a : α) : x = .ok (x.toOption.getD a) := by
  cases x with
  | error e => cases h
  | ok b => rfl

/-- What an outcome gives. -/
def Given (x : Outcome α) : Type := { a : α // x = .ok a }

/-- An outcome that is checked not to be an error gives something. -/
def given [Inhabited α] {x : Outcome α} (h : x.toOption.isSome) : x.Given :=
  ⟨x.toOption.getD default, eq_ok_getD h default⟩

theorem eq_ok_of_toOption {x : Outcome α} {a : α} (h : x.toOption = some a) : x = .ok a := by
  cases x with
  | error e => cases h
  | ok b => rw [Option.some.inj h]

theorem mapM_cons_eq_ok {f : α → Outcome β} {x : α} {xs : List α} {ys : List β} :
    (x :: xs).mapM f = .ok ys ↔ ∃ y rest, f x = .ok y ∧ xs.mapM f = .ok rest ∧ ys = y :: rest := by
  rw [List.mapM_cons, bind_eq_ok]
  simp only [bind_eq_ok, pure, Except.pure, Except.ok.injEq]
  constructor
  · rintro ⟨y, hy, rest, hrest, rfl⟩
    exact ⟨y, rest, hy, hrest, rfl⟩
  · rintro ⟨y, rest, hy, hrest, rfl⟩
    exact ⟨y, hy, rest, hrest, rfl⟩

theorem mapM_nil_eq_ok {f : α → Outcome β} {ys : List β} : [].mapM f = .ok ys ↔ ys = [] := by
  rw [List.mapM_nil]
  simp [pure, Except.pure, eq_comm]

theorem mem_of_mapM {f : α → Outcome β} {xs : List α} {ys : List β} (h : xs.mapM f = .ok ys) {y : β} :
    y ∈ ys ↔ ∃ x ∈ xs, f x = .ok y := by
  induction xs generalizing ys with
  | nil =>
    rw [mapM_nil_eq_ok] at h
    simp [h]
  | cons x xs ih =>
    obtain ⟨y', rest, hy, hrest, rfl⟩ := mapM_cons_eq_ok.mp h
    simp only [List.mem_cons, ih hrest, exists_eq_or_imp, hy, Except.ok.injEq]
    rw [eq_comm]

theorem ok_of_mapM {f : α → Outcome β} {xs : List α} {ys : List β} (h : xs.mapM f = .ok ys) {x : α}
    (hx : x ∈ xs) : ∃ y, f x = .ok y := by
  induction xs generalizing ys with
  | nil => simp at hx
  | cons z xs ih =>
    obtain ⟨y, rest, hy, hrest, -⟩ := mapM_cons_eq_ok.mp h
    rcases List.mem_cons.mp hx with rfl | hx
    · exact ⟨y, hy⟩
    · exact ih hrest hx

/-- Changing what the items of a list are mapped to changes the list that they are mapped to. -/
theorem mapM_map {f : α → Outcome β} {g : β → β} (xs : List α) :
    (xs.mapM fun x => (f x).map g) = (xs.mapM f).map (List.map g) := by
  induction xs with
  | nil => rfl
  | cons x xs ih =>
    rw [List.mapM_cons, List.mapM_cons, ih]
    cases f x with
    | error e => rfl
    | ok y => cases xs.mapM f <;> rfl

/-- What a list is mapped to are the results of its items. -/
theorem eq_filterMap_of_mapM {f : α → Outcome β} {xs : List α} {ys : List β} (h : xs.mapM f = .ok ys) :
    ys = xs.filterMap fun x => (f x).toOption := by
  induction xs generalizing ys with
  | nil => exact mapM_nil_eq_ok.mp h
  | cons x xs ih =>
    obtain ⟨y, rest, hy, hrest, rfl⟩ := mapM_cons_eq_ok.mp h
    rw [List.filterMap_cons, hy, ih hrest]
    rfl

theorem exists_mapM {f : α → Outcome β} {xs : List α} (h : ∀ x ∈ xs, ∃ y, f x = .ok y) :
    ∃ ys, xs.mapM f = .ok ys := by
  induction xs with
  | nil => exact ⟨[], mapM_nil_eq_ok.mpr rfl⟩
  | cons x xs ih =>
    obtain ⟨hx, hxs⟩ := List.forall_mem_cons.mp h
    obtain ⟨y, hy⟩ := hx
    obtain ⟨ys, hys⟩ := ih hxs
    exact ⟨y :: ys, mapM_cons_eq_ok.mpr ⟨y, ys, hy, hys, rfl⟩⟩

theorem error_of_mapM {f : α → Outcome β} {xs : List α} {e : Failure} (h : xs.mapM f = .error e) :
    ∃ x ∈ xs, f x = .error e := by
  induction xs with
  | nil => cases h
  | cons x xs ih =>
    rw [List.mapM_cons] at h
    rcases bind_eq_error.mp h with hx | ⟨y, -, hxs⟩
    · exact ⟨x, List.mem_cons_self, hx⟩
    · rcases bind_eq_error.mp hxs with hxs | ⟨ys, -, hnone⟩
      · obtain ⟨x', hx', he⟩ := ih hxs
        exact ⟨x', List.mem_cons_of_mem x hx', he⟩
      · cases hnone

/-- Steps of which one fails fail as that one does. -/
theorem error_of_foldlM {f : β → α → Outcome β} {xs : List α} {b : β} {e : Failure}
    (h : xs.foldlM f b = .error e) : ∃ x ∈ xs, ∃ b', f b' x = .error e := by
  induction xs generalizing b with
  | nil => cases h
  | cons x xs ih =>
    rw [List.foldlM_cons] at h
    rcases bind_eq_error.mp h with hx | ⟨b', -, hxs⟩
    · exact ⟨x, List.mem_cons_self, b, hx⟩
    · obtain ⟨x', hx', he⟩ := ih hxs
      exact ⟨x', List.mem_cons_of_mem x hx', he⟩

theorem pairwise_of_mapM {f : α → Outcome β} {xs : List α} {ys : List β} {R : α → α → Prop}
    {S : β → β → Prop} (h : xs.mapM f = .ok ys) (hx : xs.Pairwise R)
    (hS : ∀ a b, R a b → ∀ y z, f a = .ok y → f b = .ok z → S y z) : ys.Pairwise S := by
  induction xs generalizing ys with
  | nil =>
    obtain rfl := mapM_nil_eq_ok.mp h
    exact .nil
  | cons x xs ih =>
    obtain ⟨y, rest, hy, hrest, rfl⟩ := mapM_cons_eq_ok.mp h
    obtain ⟨hhead, htail⟩ := List.pairwise_cons.mp hx
    refine List.pairwise_cons.mpr ⟨fun z hz => ?_, ih hrest htail⟩
    obtain ⟨x', hx', hz⟩ := (mem_of_mapM hrest).mp hz
    exact hS x x' (hhead x' hx') y z hy hz

end Outcome

namespace Act

variable {σ τ α β : Type}

theorem exec_bind (act : Act σ α) (f : α → Act σ β) (s : σ) :
    (act >>= f).exec s =
      match act.exec s with
      | (.ok a, s') => (f a).exec s'
      | (.error e, s') => (.error e, s') := by
  simp only [exec, bind, ExceptT.bind, ExceptT.mk, StateT.bind]
  cases act s with
  | mk o s' => cases o <;> rfl

theorem exec_bind_ok {act : Act σ α} {s s' : σ} {a : α} (h : act.exec s = (.ok a, s'))
    (f : α → Act σ β) : (act >>= f).exec s = (f a).exec s' := by
  rw [exec_bind, h]

theorem exec_bind_error {act : Act σ α} {s s' : σ} {e : Failure} (h : act.exec s = (.error e, s'))
    (f : α → Act σ β) : (act >>= f).exec s = (.error e, s') := by
  rw [exec_bind, h]

@[simp] theorem exec_pure (a : α) (s : σ) : (pure a : Act σ α).exec s = (.ok a, s) := rfl

@[simp] theorem exec_throw (e : Failure) (s : σ) :
    (throw e : Act σ α).exec s = (.error e, s) := rfl

theorem exec_guard {c : Prop} [Decidable c] {e : Failure} {f : α → Act σ β} {act : Act σ β} {s : σ} :
    (if c then throw e >>= f else act).exec s = if c then (.error e, s) else act.exec s := by
  split <;> rfl

@[simp] theorem exec_ofOutcome (o : Outcome α) (s : σ) : (ofOutcome o).exec s = (o, s) := rfl

@[simp] theorem exec_update (f : σ → σ) (s : σ) : (update f).exec s = (.ok (), f s) := rfl

@[simp] theorem exec_asks (f : σ → α) (s : σ) : (asks f).exec s = (.ok (f s), s) := rfl

@[simp] theorem exec_of (f : σ → Outcome α × σ) (s : σ) : (of f).exec s = f s := rfl

@[simp] theorem exec_attempt (act : Act σ α) (s : σ) :
    act.attempt.exec s = (.ok (act.exec s).1, (act.exec s).2) := rfl

@[simp] theorem exec_on (get : σ → τ) (set : τ → σ → σ) (act : Act τ α) (s : σ) :
    (act.on get set).exec s = ((act.exec (get s)).1, set (act.exec (get s)).2 s) := rfl

/-! ## Acts that succeed -/

/-- From every state with the invariant the act succeeds, the invariant stays, and the result has the
property. -/
def Yields (inv : σ → Prop) (act : Act σ α) (P : α → Prop) : Prop :=
  ∀ s, inv s → ∃ a s', act.exec s = (.ok a, s') ∧ inv s' ∧ P a

variable {inv : σ → Prop} {P : α → Prop} {Q : β → Prop}

theorem Yields.mono {act : Act σ α} {P' : α → Prop} (h : act.Yields inv P)
    (hP : ∀ a, P a → P' a) : act.Yields inv P' := by
  intro s hs
  obtain ⟨a, s', he, hs', ha⟩ := h s hs
  exact ⟨a, s', he, hs', hP a ha⟩

theorem Yields.bind {act : Act σ α} {f : α → Act σ β} (h : act.Yields inv P)
    (hf : ∀ a, P a → (f a).Yields inv Q) : (act >>= f).Yields inv Q := by
  intro s hs
  obtain ⟨a, s', he, hs', ha⟩ := h s hs
  rw [exec_bind_ok he]
  exact hf a ha s' hs'

theorem yields_pure {a : α} (ha : P a) : (pure a : Act σ α).Yields inv P :=
  fun s hs => ⟨a, s, rfl, hs, ha⟩

theorem yields_ofOutcome {o : Outcome α} {a : α} (ho : o = .ok a) (ha : P a) :
    (ofOutcome o : Act σ α).Yields inv P :=
  fun s hs => ⟨a, s, by rw [exec_ofOutcome, ho], hs, ha⟩

theorem yields_update {f : σ → σ} (hf : ∀ s, inv s → inv (f s)) :
    (update f).Yields inv fun _ => True :=
  fun s hs => ⟨(), f s, rfl, hf s hs, trivial⟩

/-- Acts carried out one after another for the items of a list. -/
theorem yields_mapM {f : β → Act σ α} {R : β → α → Prop} {xs : List β}
    (h : ∀ x ∈ xs, (f x).Yields inv (R x)) : (xs.mapM f).Yields inv (List.Forall₂ R xs) := by
  induction xs with
  | nil =>
    rw [List.mapM_nil]
    exact yields_pure .nil
  | cons x xs ih =>
    rw [List.mapM_cons]
    refine (h x List.mem_cons_self).bind fun y hy => ?_
    refine (ih fun z hz => h z (List.mem_cons_of_mem _ hz)).bind fun ys hys => ?_
    exact yields_pure (.cons hy hys)

/-- Acts that yield what a function says of the items of a list. -/
theorem yields_mapM_eq {f : β → Act σ α} {g : β → α} {xs : List β}
    (h : ∀ x ∈ xs, (f x).Yields inv (· = g x)) : (xs.mapM f).Yields inv (· = xs.map g) := by
  refine (yields_mapM h).mono fun ys hys => ?_
  induction hys with
  | nil => rfl
  | cons hy _ ih => rw [hy, ih fun z hz => h z (List.mem_cons_of_mem _ hz), List.map_cons]

/-- Acts that succeed in the same way for all items of a list, carried out one after another. -/
theorem exec_mapM {f : β → Act σ α} {g : σ → β → σ} {y : α} (h : ∀ x s, (f x).exec s = (.ok y, g s x))
    (xs : List β) (s : σ) : (xs.mapM f).exec s = (.ok (xs.map fun _ => y), xs.foldl g s) := by
  induction xs generalizing s with
  | nil => rfl
  | cons x xs ih =>
    rw [List.mapM_cons, exec_bind_ok (h x s), exec_bind_ok (ih (g s x)), exec_pure]
    rfl

/-! ## Acts that do the same -/

/-- From every state with the invariant the act keeps it, and what it yields, if it succeeds, has the
property. -/
def Ensures (inv : σ → Prop) (act : Act σ α) (P : α → Prop) : Prop :=
  ∀ s, inv s → inv (act.exec s).2 ∧ ∀ a, (act.exec s).1 = .ok a → P a

theorem ensures_pure {a : α} (ha : P a) : (pure a : Act σ α).Ensures inv P :=
  fun _ hs => ⟨hs, fun _ h => Except.ok.inj h ▸ ha⟩

theorem ensures_ofOutcome {o : Outcome α} (h : ∀ a, o = .ok a → P a) :
    (ofOutcome o : Act σ α).Ensures inv P :=
  fun _ hs => ⟨hs, h⟩

theorem ensures_update {f : σ → σ} (hf : ∀ s, inv s → inv (f s)) :
    (update f).Ensures inv fun _ => True :=
  fun s hs => ⟨hf s hs, fun _ _ => trivial⟩

theorem Ensures.bind {act : Act σ α} {f : α → Act σ β} (h : act.Ensures inv P)
    (hf : ∀ a, P a → (f a).Ensures inv Q) : (act >>= f).Ensures inv Q := by
  intro s hs
  obtain ⟨hkeep, hP⟩ := h s hs
  rw [exec_bind]
  split
  · rename_i a s' he
    rw [he] at hkeep hP
    exact hf a (hP a rfl) s' hkeep
  · rename_i e s' he
    rw [he] at hkeep
    exact ⟨hkeep, fun _ h => by cases h⟩

theorem Ensures.mono {act : Act σ α} {P' : α → Prop} (h : act.Ensures inv P) (hP : ∀ a, P a → P' a) :
    act.Ensures inv P' :=
  fun s hs => ⟨(h s hs).1, fun a ha => hP a ((h s hs).2 a ha)⟩

theorem Yields.ensures {a : Act σ α} (h : a.Yields inv P) : a.Ensures inv P := by
  intro s hs
  obtain ⟨x, t, hx, ht, hP⟩ := h s hs
  rw [hx]
  exact ⟨ht, fun y hy => Except.ok.inj hy ▸ hP⟩

/-- Acts carried out one after another for the items of a list. -/
theorem ensures_forall₂ {f : β → Act σ α} {R : β → α → Prop} {xs : List β}
    (h : ∀ x ∈ xs, (f x).Ensures inv (R x)) : (xs.mapM f).Ensures inv (List.Forall₂ R xs) := by
  induction xs with
  | nil =>
    rw [List.mapM_nil]
    exact ensures_pure .nil
  | cons x xs ih =>
    rw [List.mapM_cons]
    refine (h x List.mem_cons_self).bind fun y hy => ?_
    refine (ih fun z hz => h z (List.mem_cons_of_mem _ hz)).bind fun ys hys => ?_
    exact ensures_pure (.cons hy hys)

theorem ensures_mapM {f : β → Act σ α} {xs : List β} (h : ∀ x ∈ xs, (f x).Ensures inv fun _ => True) :
    (xs.mapM f).Ensures inv fun _ => True :=
  (ensures_forall₂ h).mono fun _ _ => trivial

theorem ensures_throw (e : Failure) : (throw e : Act σ α).Ensures inv P :=
  fun _ hs => ⟨hs, fun _ h => by cases h⟩

theorem ensures_asks (f : σ → α) : (asks f).Ensures inv fun _ => True :=
  fun _ hs => ⟨hs, fun _ _ => trivial⟩

theorem Ensures.attempt {act : Act σ α} (h : act.Ensures inv P) :
    act.attempt.Ensures inv fun _ => True :=
  fun s hs => ⟨(h s hs).1, fun _ _ => trivial⟩

theorem ensures_forM {f : β → Act σ PUnit} {R : β → Prop} {xs : List β}
    (h : ∀ x ∈ xs, (f x).Ensures inv fun _ => R x) :
    (xs.forM f).Ensures inv fun _ => ∀ x ∈ xs, R x := by
  induction xs with
  | nil => exact ensures_pure (by simp)
  | cons x xs ih =>
    refine (h x List.mem_cons_self).bind fun _ hx => ?_
    refine (ih fun z hz => h z (List.mem_cons_of_mem _ hz)).mono fun _ hxs => ?_
    exact List.forall_mem_cons.mpr ⟨hx, hxs⟩

/-- An act on a part of the state keeps what it keeps of the part. -/
theorem Ensures.on {get : σ → τ} {set : τ → σ → σ} {act : Act τ α} {part : τ → Prop}
    (h : act.Ensures part P) (hget : ∀ s, inv s → part (get s))
    (hset : ∀ s t, inv s → part t → inv (set t s)) : (act.on get set).Ensures inv P :=
  fun s hs =>
    have hact := h (get s) (hget s hs)
    ⟨hset s _ hs hact.1, hact.2⟩

/-- Two acts do the same from every state with the invariant. -/
def SameFrom (inv : σ → Prop) (a b : Act σ α) : Prop := ∀ s, inv s → a.exec s = b.exec s

theorem SameFrom.refl (a : Act σ α) : a.SameFrom inv a := fun _ _ => rfl

theorem SameFrom.bind {a b : Act σ α} {f g : α → Act σ β} (h : a.Ensures inv P)
    (hab : a.SameFrom inv b) (hf : ∀ x, P x → (f x).SameFrom inv (g x)) :
    (a >>= f).SameFrom inv (b >>= g) := by
  intro s hs
  obtain ⟨hkeep, hP⟩ := h s hs
  rw [exec_bind, exec_bind, ← hab s hs]
  split
  · rename_i x s' he
    rw [he] at hkeep hP
    exact hf x (hP x rfl) s' hkeep
  · rfl

/-- Changing a result in a way that leaves it as it is changes nothing. -/
theorem SameFrom.map {act : Act σ α} {f : α → α} (h : act.Ensures inv P) (hf : ∀ x, P x → f x = x) :
    act.SameFrom inv (act >>= fun x => pure (f x)) := by
  intro s hs
  obtain ⟨-, hP⟩ := h s hs
  rw [exec_bind]
  split
  · rename_i x s' he
    rw [he, exec_pure, hf x (hP x (by rw [he]))]
  · rename_i e s' he
    exact he

theorem SameFrom.mapM {f : β → Act σ α} {γ : Type} {g : γ → Act σ α} {k : β → γ} {xs : List β}
    (h : ∀ x ∈ xs, (f x).Ensures inv fun _ => True) (hfg : ∀ x ∈ xs, (f x).SameFrom inv (g (k x))) :
    (xs.mapM f).SameFrom inv ((xs.map k).mapM g) := by
  induction xs with
  | nil => exact .refl _
  | cons x xs ih =>
    rw [List.mapM_cons, List.map_cons, List.mapM_cons]
    have hrest : ∀ z ∈ xs, (f z).Ensures inv fun _ => True :=
      fun z hz => h z (List.mem_cons_of_mem _ hz)
    refine .bind (h x List.mem_cons_self) (hfg x List.mem_cons_self) fun y _ => ?_
    refine .bind (ensures_mapM hrest) (ih hrest fun z hz => hfg z (List.mem_cons_of_mem _ hz)) fun ys _ => ?_
    exact .refl _

/-! ## Acts that agree -/

/-- From any two states with the invariant both acts keep it, and both fail, or both succeed with results that
are related. -/
def Agree (inv : σ → Prop) (a : Act σ α) (b : Act σ β) (R : α → β → Prop) : Prop :=
  ∀ s s', inv s → inv s' → inv (a.exec s).2 ∧ inv (b.exec s').2 ∧
    Option.Rel R (a.exec s).1.toOption (b.exec s').1.toOption

variable {γ δ : Type} {R : α → β → Prop} {S : γ → δ → Prop}

theorem agree_pure {x : α} {y : β} (h : R x y) : (pure x : Act σ α).Agree inv (pure y) R :=
  fun _ _ hs hs' => ⟨hs, hs', .some h⟩

theorem agree_ofOutcome {o : Outcome α} {o' : Outcome β} (h : Option.Rel R o.toOption o'.toOption) :
    (ofOutcome o : Act σ α).Agree inv (ofOutcome o') R :=
  fun _ _ hs hs' => ⟨hs, hs', h⟩

theorem agree_update {f g : σ → σ} (hf : ∀ s, inv s → inv (f s)) (hg : ∀ s, inv s → inv (g s)) :
    (update f).Agree inv (update g) fun _ _ => True :=
  fun s s' hs hs' => ⟨hf s hs, hg s' hs', .some trivial⟩

theorem Agree.bind {a : Act σ α} {b : Act σ β} {f : α → Act σ γ} {g : β → Act σ δ} (h : a.Agree inv b R)
    (hfg : ∀ x y, R x y → (f x).Agree inv (g y) S) : (a >>= f).Agree inv (b >>= g) S := by
  intro s s' hs hs'
  have hab := h s s' hs hs'
  rw [exec_bind, exec_bind]
  generalize a.exec s = r at hab ⊢
  generalize b.exec s' = r' at hab ⊢
  obtain ⟨o, t⟩ := r
  obtain ⟨o', t'⟩ := r'
  obtain ⟨ha, hb, hrel⟩ := hab
  cases o with
  | error e =>
    cases o' with
    | error e' => exact ⟨ha, hb, .none⟩
    | ok y => cases hrel
  | ok x =>
    cases o' with
    | error e' => cases hrel
    | ok y => exact hfg x y (Option.rel_some_some.mp hrel) t t' ha hb

theorem Agree.mono {a : Act σ α} {b : Act σ β} {R' : α → β → Prop} (h : a.Agree inv b R)
    (hR : ∀ x y, R x y → R' x y) : a.Agree inv b R' := by
  intro s s' hs hs'
  obtain ⟨ha, hb, hrel⟩ := h s s' hs hs'
  refine ⟨ha, hb, ?_⟩
  generalize (a.exec s).1.toOption = x at hrel
  generalize (b.exec s').1.toOption = y at hrel
  cases hrel with
  | none => exact .none
  | some hxy => exact .some (hR _ _ hxy)

/-- Acts that agree, carried out one after another for the items of a list. -/
theorem agree_mapM {f : γ → Act σ α} {g : γ → Act σ β} {xs : List γ}
    (h : ∀ x ∈ xs, (f x).Agree inv (g x) R) : (xs.mapM f).Agree inv (xs.mapM g) (List.Forall₂ R) := by
  induction xs with
  | nil => exact agree_pure .nil
  | cons x xs ih =>
    rw [List.mapM_cons, List.mapM_cons]
    refine (h x List.mem_cons_self).bind fun y y' hy => ?_
    refine (ih fun z hz => h z (List.mem_cons_of_mem _ hz)).bind fun ys ys' hys => ?_
    exact agree_pure (.cons hy hys)

theorem Agree.trans {a b c : Act σ (List α)} (hab : a.Agree inv b List.Perm) (hbc : b.Agree inv c List.Perm) :
    a.Agree inv c List.Perm := by
  intro s s' hs hs'
  obtain ⟨ha, -, hrel⟩ := hab s s hs hs
  obtain ⟨-, hc, hrel'⟩ := hbc s s' hs hs'
  refine ⟨ha, hc, ?_⟩
  generalize (a.exec s).1.toOption = x at hrel
  generalize (b.exec s).1.toOption = y at hrel hrel'
  generalize (c.exec s').1.toOption = z at hrel'
  cases hrel with
  | none => exact hrel'
  | some hxy =>
    cases hrel' with
    | some hyz => exact .some (hxy.trans hyz)

/-- From every state with the invariant the act fails, or from every one it succeeds with the same result; the
invariant stays. -/
def Steady (inv : σ → Prop) (act : Act σ α) : Prop :=
  act.Ensures inv (fun _ => False) ∨ ∃ x, act.Yields inv (· = x)

theorem steady_pure (x : α) : (pure x : Act σ α).Steady inv := .inr ⟨x, yields_pure rfl⟩

theorem steady_ofOutcome (o : Outcome α) : (ofOutcome o : Act σ α).Steady inv := by
  cases o with
  | error e => exact .inl (ensures_ofOutcome fun _ h => by cases h)
  | ok x => exact .inr ⟨x, yields_ofOutcome rfl rfl⟩

theorem Steady.bind {a : Act σ α} {f : α → Act σ β} (h : a.Steady inv) (hf : ∀ x, (f x).Steady inv) :
    (a >>= f).Steady inv := by
  rcases h with hno | ⟨x, hx⟩
  · exact .inl (hno.bind fun _ h => h.elim)
  · rcases hf x with hno | ⟨y, hy⟩
    · exact .inl (hx.ensures.bind fun _ hx => hx ▸ hno)
    · exact .inr ⟨y, hx.bind fun _ hx => hx ▸ hy⟩

theorem agree_of_fails {a : Act σ α} {b : Act σ β} (ha : a.Ensures inv fun _ => False)
    (hb : b.Ensures inv fun _ => False) : a.Agree inv b R := by
  intro s s' hs hs'
  obtain ⟨hkeep, hno⟩ := ha s hs
  obtain ⟨hkeep', hno'⟩ := hb s' hs'
  refine ⟨hkeep, hkeep', ?_⟩
  cases ho : (a.exec s).1 with
  | ok x => cases hno x ho
  | error e =>
    cases ho' : (b.exec s').1 with
    | ok y => cases hno' y ho'
    | error e' => exact .none

theorem Steady.ensures {a : Act σ α} (h : a.Steady inv) : a.Ensures inv fun _ => True := by
  rcases h with hno | ⟨x, hx⟩
  · exact hno.mono fun _ _ => trivial
  · exact hx.ensures.mono fun _ _ => trivial

theorem Steady.agree {a : Act σ α} (h : a.Steady inv) : a.Agree inv a (· = ·) := by
  rcases h with hno | ⟨x, hx⟩
  · exact agree_of_fails hno hno
  · intro s s' hs hs'
    obtain ⟨y, t, hy, ht, rfl⟩ := hx s hs
    obtain ⟨y', t', hy', ht', rfl⟩ := hx s' hs'
    rw [hy, hy']
    exact ⟨ht, ht', .some rfl⟩

/-- Two steady acts may be carried out in either order. -/
theorem agree_swap {a : Act σ α} {b : Act σ β} {f g : α → β → Act σ γ} (ha : a.Steady inv)
    (hb : b.Steady inv) {S : γ → γ → Prop} (hfg : ∀ x y, (f x y).Agree inv (g x y) S) :
    (a >>= fun x => b >>= f x).Agree inv (b >>= fun y => a >>= fun x => g x y) S := by
  rcases ha with hno | ⟨x, hx⟩
  · exact agree_of_fails (hno.bind fun _ h => h.elim)
      (hb.ensures.bind fun _ _ => hno.bind fun _ h => h.elim)
  rcases hb with hno | ⟨y, hy⟩
  · exact agree_of_fails (hx.ensures.bind fun _ _ => hno.bind fun _ h => h.elim)
      (hno.bind fun _ h => h.elim)
  intro s s' hs hs'
  obtain ⟨_, t, hxt, ht, rfl⟩ := hx s hs
  obtain ⟨_, u, hyu, hu, rfl⟩ := hy t ht
  obtain ⟨_, t', hyt, ht', rfl⟩ := hy s' hs'
  obtain ⟨_, u', hxu, hu', rfl⟩ := hx t' ht'
  rw [exec_bind_ok hxt, exec_bind_ok hyu, exec_bind_ok hyt, exec_bind_ok hxu]
  exact hfg _ _ u u' hu hu'

/-- Steady acts for the items of a list have the same results in whatever order they are carried out. -/
theorem agree_mapM_perm {f : β → Act σ α} {xs ys : List β} (hp : xs.Perm ys)
    (h : ∀ x ∈ xs, (f x).Steady inv) : (xs.mapM f).Agree inv (ys.mapM f) List.Perm := by
  induction hp with
  | nil => exact agree_pure (List.Perm.refl _)
  | cons x hp ih =>
    rw [List.mapM_cons, List.mapM_cons]
    refine (h x List.mem_cons_self).agree.bind fun y y' hy => ?_
    refine (ih fun z hz => h z (List.mem_cons_of_mem _ hz)).bind fun ys ys' hys => ?_
    exact agree_pure (hy ▸ hys.cons y)
  | swap x y l =>
    simp only [List.mapM_cons, bind_assoc, pure_bind]
    obtain ⟨hy, hrest⟩ := List.forall_mem_cons.mp h
    obtain ⟨hx, hl⟩ := List.forall_mem_cons.mp hrest
    refine agree_swap hy hx fun y' x' => ?_
    refine (agree_mapM fun z hz => (hl z hz).agree).bind fun zs zs' hzs => ?_
    rw [List.forall₂_eq_eq_eq] at hzs
    exact agree_pure (hzs ▸ List.Perm.swap ..)
  | trans hp _ ih ih' => exact (ih h).trans (ih' fun x hx => h x (hp.mem_iff.mpr hx))

/-! ## Acts that change nothing -/

/-- The act leaves every state as it is. -/
def Quiet (act : Act σ α) : Prop := ∀ s, (act.exec s).2 = s

variable {act : Act σ α} {f : α → Act σ β}

theorem Quiet.exec (h : act.Quiet) (s : σ) :
    (∃ e, act.exec s = (.error e, s)) ∨ ∃ a, act.exec s = (.ok a, s) := by
  have hs := h s
  cases he : act.exec s with
  | mk o s' =>
    rw [he] at hs
    cases o with
    | error e => exact .inl ⟨e, by rw [← hs]⟩
    | ok a => exact .inr ⟨a, by rw [← hs]⟩

theorem Quiet.bind (h : act.Quiet) (hf : ∀ a, (f a).Quiet) : (act >>= f).Quiet := by
  intro s
  have hs := h s
  rw [exec_bind]
  split
  · rename_i a s' he
    rw [he] at hs
    subst hs
    exact hf a _
  · rename_i e s' he
    rwa [he] at hs

theorem quiet_pure (a : α) : (pure a : Act σ α).Quiet := fun _ => rfl

theorem quiet_asks (g : σ → α) : (asks g).Quiet := fun _ => rfl

theorem quiet_forM {f : β → Act σ PUnit} (h : ∀ x, (f x).Quiet) (xs : List β) : (xs.forM f).Quiet := by
  induction xs with
  | nil => exact quiet_pure _
  | cons x xs ih => exact (h x).bind fun _ => ih

/-- A quiet act that succeeds after another one has had the same state. -/
theorem Quiet.bind_ok (h : act.Quiet) {s s' : σ} {b : β} (hb : (act >>= f).exec s = (.ok b, s')) :
    ∃ a, act.exec s = (.ok a, s) ∧ (f a).exec s = (.ok b, s') := by
  have hs := h s
  rw [exec_bind] at hb
  split at hb
  · rename_i a s₁ he
    rw [he] at hs
    subst hs
    exact ⟨a, he, hb⟩
  · cases hb

theorem Quiet.forM_ok {f : β → Act σ PUnit} (h : ∀ x, (f x).Quiet) {xs : List β} {s s' : σ}
    (hxs : (xs.forM f).exec s = (.ok (), s')) : ∀ x ∈ xs, (f x).exec s = (.ok (), s) := by
  induction xs with
  | nil => exact fun x hx => absurd hx List.not_mem_nil
  | cons x xs ih =>
    obtain ⟨_, hx, hrest⟩ := (h x).bind_ok hxs
    exact List.forall_mem_cons.mpr ⟨hx, ih hrest⟩

end Act

/-! ## Operations -/

namespace Operation

variable {σ α : Type} [Timed σ] {op : Operation σ} {call : Act σ α} {s s' : σ} {a : α}

theorem run_ok (hb : op.budget ≠ 0) (h : call.exec s = (.ok a, s')) :
    (op.run call).exec s = (.ok a, s') := by
  have hd (deadline fuel : Nat) : op.repeated call deadline fuel 0 s = (.ok a, s') := by
    unfold repeated
    rw [h]
    rfl
  unfold run direct
  rw [Act.exec_of, if_neg hb, if_neg hb, hd]

theorem eq_ok_of_success {o : Outcome α} {a : α} (h : Attempt.classify o = .success a) : o = .ok a := by
  unfold Attempt.classify at h
  split at h
  · rw [Attempt.success.inj h]
  · split at h
    · cases h
    · split at h <;> cases h

section

variable {inv : σ → Prop} {P : α → Prop}

/-- Repetitions keep what the call, a sleep and a note keep, and yield what the call has yielded. -/
theorem repeated_ensures (hcall : call.Ensures inv P) (hsleep : ∀ s d, inv s → inv (sleepFor d s))
    (hnote : ∀ s, inv s → inv (op.note s)) (deadline fuel made : Nat) (s : σ) (hs : inv s) :
    inv (op.repeated call deadline fuel made s).2 ∧
      ∀ a, (op.repeated call deadline fuel made s).1 = .ok a → P a := by
  fun_induction op.repeated call deadline fuel made s with
  | case1 fuel made s r a ha =>
    obtain ⟨hkeep, hP⟩ := hcall s hs
    exact ⟨hkeep, fun b hb => hP b ((eq_ok_of_success ha).trans (by cases hb; rfl))⟩
  | case2 fuel made s r f hf => exact ⟨(hcall s hs).1, fun _ h => by cases h⟩
  | case3 fuel made s r last hl wait hw => exact ⟨(hcall s hs).1, fun _ h => by cases h⟩
  | case4 fuel made s r last hl wait hw s' hi => exact ⟨hnote _ (hcall s hs).1, fun _ h => by cases h⟩
  | case5 made s r last hl wait hw s' hi => exact ⟨hnote _ (hcall s hs).1, fun _ h => by cases h⟩
  | case6 made s r last hl wait hw s' hi fuel ih => exact ih (hsleep _ _ (hnote _ (hcall s hs).1))

theorem run_ensures (hcall : call.Ensures inv P) (hsleep : ∀ s d, inv s → inv (sleepFor d s))
    (hnote : ∀ s, inv s → inv (op.note s)) : (op.run call).Ensures inv P := by
  intro s hs
  unfold run direct
  rw [Act.exec_of]
  split
  · exact ⟨hs, fun _ h => by cases h⟩
  · obtain ⟨hkeep, hP⟩ :=
      repeated_ensures hcall hsleep hnote (now s + op.budget) (enough op.budget) 0 s hs
    split
    · rename_i a s' he
      rw [he] at hkeep hP
      exact ⟨hkeep, fun b hb => by cases hb; exact hP a rfl⟩
    · rename_i f s' he
      rw [he] at hkeep
      exact ⟨hkeep, fun _ h => by cases h⟩

end

theorem run_without_budget (hb : op.budget = 0) (call : Act σ α) (s : σ) :
    (op.run call).exec s = (.error (.invalid "total wait time must be positive"), s) := by
  unfold run
  rw [Act.exec_of, if_pos hb]

end Operation

end RowGraph
