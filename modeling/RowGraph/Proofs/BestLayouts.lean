import RowGraph.Plan.Candidate
import RowGraph.Proofs.BuiltSchema
import RowGraph.Proofs.Rounding
import RowGraph.Schema.Tables

/-!
# The best layout

Of the layouts through which a type may be read at an end, the one that is chosen is the first of the best
(`select_firstBest`).  The choice is a walk over the candidates that keeps the best one so far and gives it up
for a better one only (`isFirstBest_foldl`).  Scores are sums of amounts, which are never negative and never
anything but a number or infinite (`isAmount_score`), so that their bits are in the order of the numbers.
-/

namespace RowGraph

namespace Binary64

variable {x y : Binary64}

/-- The first is greater, as numbers. -/
def Exceeds (x y : Binary64) : Prop := compareValues? x y = some .gt

/-- A number that is not negative, or infinity. -/
structure IsAmount (x : Binary64) : Prop where
  sign : x.isNegative = false
  number : x.isNaN = false

theorem isAmount_ofMagnitude {m : Nat} (h : m ≤ infinityBits) : (ofMagnitude false m).IsAmount where
  sign := by
    have hsign : infinityBits < signBit := by decide
    have hsize : signBit < 2 ^ 64 := by decide
    unfold isNegative ofMagnitude
    rw [if_neg Bool.false_ne_true, UInt64.toNat_ofNat', Nat.mod_eq_of_lt (by omega)]
    exact decide_eq_false (by omega)
  number := by
    unfold isNaN
    rw [magnitude_ofMagnitude false h]
    exact decide_eq_false (by omega)

theorem isAmount_nearest (num den : Nat) : (nearest false num den).IsAmount :=
  isAmount_ofMagnitude (Nat.min_le_right ..)

theorem isAmount_ofNat (n : Nat) : (ofNat n).IsAmount := isAmount_nearest n 1

theorem isAmount_add (x y : Binary64) : (x.add y).IsAmount := by
  unfold add
  split
  · exact isAmount_nearest ..
  · exact isAmount_ofMagnitude (Nat.le_refl _)

theorem compare_eq_lt_iff : compare x y = .lt ↔ x.rank < y.rank := Int.compare_eq_lt

/-- Amounts compare as numbers the way their bits do. -/
theorem IsAmount.exceeds_iff (hx : x.IsAmount) (hy : y.IsAmount) : x.Exceeds y ↔ y.rank < x.rank := by
  have hlevel {z : Binary64} (hz : z.IsAmount) : z.level = z.rank := by
    unfold level rank
    rw [hz.sign]
    rfl
  unfold Exceeds compareValues?
  rw [hx.number, hy.number, hlevel hx, hlevel hy]
  simp only [Bool.or_self, Bool.false_eq_true, if_false, Option.some.injEq]
  exact Int.compare_eq_gt

end Binary64

/-! ## The first of the best -/

section FirstBest

variable {α : Type} {worth : α → Int} {p : α → Bool} {xs : List α} {x best : α}

/-- No item of the list is worth more than this one, and no item before it is worth as much. -/
def IsFirstBest (worth : α → Int) (xs : List α) (best : α) : Prop :=
  ∃ before after, xs = before ++ best :: after ∧ (∀ b ∈ before, worth b < worth best) ∧
    ∀ a ∈ after, worth a ≤ worth best

theorem isFirstBest_cons : IsFirstBest worth (x :: xs) best ↔
    (best = x ∧ ∀ a ∈ xs, worth a ≤ worth x) ∨ (worth x < worth best ∧ IsFirstBest worth xs best) := by
  constructor
  · rintro ⟨before, after, he, hbefore, hafter⟩
    cases before with
    | nil =>
      obtain ⟨rfl, rfl⟩ := List.cons_eq_cons.mp he
      exact .inl ⟨rfl, hafter⟩
    | cons b before =>
      obtain ⟨rfl, rfl⟩ := List.cons_eq_cons.mp he
      obtain ⟨hb, hbefore⟩ := List.forall_mem_cons.mp hbefore
      exact .inr ⟨hb, before, after, rfl, hbefore, hafter⟩
  · rintro (⟨rfl, hafter⟩ | ⟨hx, before, after, rfl, hbefore, hafter⟩)
    · exact ⟨[], xs, rfl, by simp, hafter⟩
    · exact ⟨x :: before, after, rfl, List.forall_mem_cons.mpr ⟨hx, hbefore⟩, hafter⟩

theorem IsFirstBest.le (h : IsFirstBest worth xs best) : ∀ x ∈ xs, worth x ≤ worth best := by
  obtain ⟨before, after, rfl, hbefore, hafter⟩ := h
  intro x hx
  rcases List.mem_append.mp hx with hx | hx
  · exact Int.le_of_lt (hbefore x hx)
  · rcases List.mem_cons.mp hx with rfl | hx
    · exact Int.le_refl _
    · exact hafter x hx

/-- The walk that keeps the first item until one that is worth more comes ends at the first of the best. -/
theorem isFirstBest_foldl (worth : α → Int) (x : α) (xs : List α) :
    IsFirstBest worth (x :: xs) (xs.foldl (fun best y => if worth best < worth y then y else best) x) := by
  induction xs generalizing x with
  | nil => exact isFirstBest_cons.mpr (.inl ⟨rfl, by simp⟩)
  | cons y xs ih =>
    rw [List.foldl_cons]
    by_cases hxy : worth x < worth y
    · rw [if_pos hxy]
      have hy : worth y ≤ _ := (ih y).le y List.mem_cons_self
      exact isFirstBest_cons.mpr (.inr ⟨by omega, ih y⟩)
    · rw [if_neg hxy]
      -- what comes later is compared with `x`, which is worth no less than `y`
      rcases isFirstBest_cons.mp (ih x) with ⟨hbest, hxs⟩ | ⟨hx, hbest⟩
      · refine isFirstBest_cons.mpr (.inl ⟨hbest, List.forall_mem_cons.mpr ⟨by omega, hxs⟩⟩)
      · exact isFirstBest_cons.mpr (.inr ⟨hx, isFirstBest_cons.mpr (.inr ⟨by omega, hbest⟩)⟩)

/-- The first of the best among the items that pass a test, seen in the list of all items. -/
theorem IsFirstBest.of_filter (h : IsFirstBest worth (xs.filter p) best) :
    p best = true ∧ ∃ before after, xs = before ++ best :: after ∧
      ∀ b ∈ before, p b = true → worth b < worth best := by
  obtain ⟨before, after, he, hbefore, -⟩ := h
  obtain ⟨front, back, rfl, rfl, hback⟩ := List.filter_eq_append_iff.mp he
  obtain ⟨skipped, rest, rfl, hskipped, hbest, -⟩ := List.filter_eq_cons_iff.mp hback
  refine ⟨hbest, front ++ skipped, rest, by simp, fun b hb hp => ?_⟩
  rcases List.mem_append.mp hb with hb | hb
  · exact hbefore b (List.mem_filter.mpr ⟨hb, hp⟩)
  · exact absurd hp (hskipped b hb)

end FirstBest

/-! ## The choice -/

namespace Candidate

variable {schema : Schema} {t c : RelationType} {d : Direction} {intervals : SortedMap TypeId Interval}
  {order : ResultOrder}

theorem isAmount_walk (intervals : SortedMap TypeId Interval) {score : Binary64} (h : score.IsAmount)
    (wanted keys : List TypeId) : (walk intervals score wanted keys).1.IsAmount := by
  induction keys generalizing score wanted with
  | nil => exact h
  | cons key keys ih =>
    rw [walk]
    split
    · exact h
    · exact Binary64.isAmount_add ..
    · exact ih (Binary64.isAmount_add ..) _

theorem isAmount_score (c : RelationType) (d : Direction) (intervals : SortedMap TypeId Interval)
    (order : ResultOrder) : (score c d intervals order).score.IsAmount := by
  unfold score
  dsimp only
  split
  · exact Binary64.isAmount_add ..
  · exact isAmount_walk intervals (Binary64.isAmount_ofNat 0) ..

theorem all_eq_ok {xs : List RelationType} (h : schema.indexesOver t = .ok xs) : all schema t = .ok (t :: xs) :=
  Outcome.bind_eq_ok.mpr ⟨xs, h, rfl⟩

/-- The candidate is kept at both ends or at this one alone, and it is the type itself or enabled. -/
def Eligible (t : RelationType) (d : Direction) (c : RelationType) : Prop :=
  (c.directionality = .both ∨ c.directionality = d) ∧ (c.id ≠ t.id → c.status = .enabled)

theorem isEligible_iff : isEligible t d c = true ↔ Eligible t d c := by
  unfold isEligible Eligible RelationType.isDirected
  simp only [Bool.and_eq_true, Bool.or_eq_true, beq_iff_eq, Decidable.or_iff_not_imp_left, ne_eq]

/-- A candidate with its score. -/
def scored (d : Direction) (intervals : SortedMap TypeId Interval) (order : ResultOrder) (c : RelationType) :
    RelationType × CandidateScore :=
  (c, score c d intervals order)

/-- The place of the score of a candidate among all scores. -/
def worth (d : Direction) (intervals : SortedMap TypeId Interval) (order : ResultOrder) (c : RelationType) :
    Int :=
  (score c d intervals order).score.rank

theorem exceeds_iff_worth (d : Direction) (intervals : SortedMap TypeId Interval) (order : ResultOrder)
    (a b : RelationType) :
    (score a d intervals order).score.Exceeds (score b d intervals order).score ↔
      worth d intervals order b < worth d intervals order a :=
  (isAmount_score a d intervals order).exceeds_iff (isAmount_score b d intervals order)

theorem better_scored (a b : RelationType) :
    better (some (scored d intervals order a)) (scored d intervals order b) =
      some (scored d intervals order
        (if worth d intervals order a < worth d intervals order b then b else a)) := by
  unfold better scored
  dsimp only
  by_cases h : worth d intervals order a < worth d intervals order b
  · rw [if_pos h, Binary64.compare_eq_lt_iff.mpr h]
    rfl
  · rw [if_neg h, if_neg]
    rw [beq_iff_eq, Binary64.compare_eq_lt_iff]
    exact h

theorem foldl_better_scored (c : RelationType) (cs : List RelationType) :
    (cs.map (scored d intervals order)).foldl better (some (scored d intervals order c)) =
      some (scored d intervals order (cs.foldl (fun best y =>
        if worth d intervals order best < worth d intervals order y then y else best) c)) := by
  induction cs generalizing c with
  | nil => rfl
  | cons y cs ih => rw [List.map_cons, List.foldl_cons, better_scored, ih, List.foldl_cons]

/-- The walk over candidates with their scores ends where the walk over the candidates does. -/
theorem foldl_better_cons (c : RelationType) (cs : List RelationType) :
    ((c :: cs).map (scored d intervals order)).foldl better none =
      some (scored d intervals order (cs.foldl (fun best y =>
        if worth d intervals order best < worth d intervals order y then y else best) c)) := by
  rw [List.map_cons, List.foldl_cons]
  exact foldl_better_scored c cs

/-- Of the candidates this one is the first of the best that may be read. -/
structure Best (t : RelationType) (d : Direction) (intervals : SortedMap TypeId Interval) (order : ResultOrder)
    (candidates : List RelationType) (c : RelationType) : Prop where
  eligible : Eligible t d c
  /-- None scores more. -/
  greatest : ∀ other ∈ candidates, Eligible t d other →
    ¬ (score other d intervals order).score.Exceeds (score c d intervals order).score
  /-- None before it scores as much. -/
  first : ∃ before after, candidates = before ++ c :: after ∧ ∀ other ∈ before, Eligible t d other →
    (score c d intervals order).score.Exceeds (score other d intervals order).score

variable {candidates : List RelationType}

theorem Best.of_isFirstBest
    (h : IsFirstBest (worth d intervals order) (candidates.filter (isEligible t d)) c) :
    Best t d intervals order candidates c := by
  obtain ⟨hc, before, after, he, hbefore⟩ := h.of_filter
  refine ⟨isEligible_iff.mp hc, fun other hother helig => ?_, before, after, he, fun other hother helig => ?_⟩
  · rw [exceeds_iff_worth]
    have hle := h.le other (List.mem_filter.mpr ⟨hother, isEligible_iff.mpr helig⟩)
    omega
  · rw [exceeds_iff_worth]
    exact hbefore other hother (isEligible_iff.mpr helig)

theorem Best.mem (h : Best t d intervals order candidates c) : c ∈ candidates := by
  obtain ⟨before, after, rfl, -⟩ := h.first
  exact List.mem_append_right _ List.mem_cons_self

theorem select_eq (h : all schema t = .ok candidates) :
    select schema t d intervals order =
      match ((candidates.filter (isEligible t d)).map (scored d intervals order)).foldl better none with
      | some best => .ok best
      | none => .error (.unsatisfiable t.name) := by
  unfold select
  rw [h]
  rfl

/-- Where nothing may be read there is nothing to choose. -/
theorem select_nothing (h : all schema t = .ok candidates)
    (hnone : ∀ other ∈ candidates, ¬ Eligible t d other) :
    select schema t d intervals order = .error (.unsatisfiable t.name) := by
  have hempty : candidates.filter (isEligible t d) = [] := by
    rw [List.filter_eq_nil_iff]
    intro other hother helig
    exact hnone other hother (isEligible_iff.mp helig)
  rw [select_eq h, hempty]
  rfl

/-- Where something may be read the first of the best is chosen, with its score. -/
theorem select_best (h : all schema t = .ok candidates) (hsome : ∃ other ∈ candidates, Eligible t d other) :
    ∃ c, select schema t d intervals order = .ok (c, score c d intervals order) ∧
      Best t d intervals order candidates c := by
  obtain ⟨other, hother, helig⟩ := hsome
  have hmem := List.mem_filter.mpr ⟨hother, isEligible_iff.mpr helig⟩
  obtain ⟨first, rest, hcons⟩ := List.exists_cons_of_ne_nil (List.ne_nil_of_mem hmem)
  have hbest := isFirstBest_foldl (worth d intervals order) first rest
  rw [← hcons] at hbest
  refine ⟨_, ?_, Best.of_isFirstBest hbest⟩
  rw [select_eq h, hcons, foldl_better_cons]
  rfl

/-- What is chosen is the first of the best, with its score. -/
theorem best_of_select {found : RelationType × CandidateScore} (h : all schema t = .ok candidates)
    (hfound : select schema t d intervals order = .ok found) :
    Best t d intervals order candidates found.1 ∧ found.2 = score found.1 d intervals order := by
  by_cases hsome : ∃ other ∈ candidates, Eligible t d other
  · obtain ⟨c, hc, hbest⟩ : ∃ c, select schema t d intervals order = .ok (c, score c d intervals order) ∧
        Best t d intervals order candidates c := select_best h hsome
    rw [hfound] at hc
    obtain rfl := Except.ok.inj hc
    exact ⟨hbest, rfl⟩
  · rw [select_nothing h fun other hother helig => hsome ⟨other, hother, helig⟩] at hfound
    cases hfound

/-- The type and what its indexes are numbered with, in the order of their definition. -/
def numbered (schema : Schema) (t : RelationType) : List RelationType := t :: t.indexes.filterMap schema.type?

/-- If the indexes of a type are found, the candidates are the type and these indexes, in the order of their
definition.  If some of them may be read, one is chosen that may be read, the first of those with the greatest
score, and its score comes with it.  The choice fails just if none may be read, and says so. -/
theorem select_firstBest (schema : Schema) (t : RelationType) (d : Direction)
    (intervals : SortedMap TypeId Interval) (order : ResultOrder)
    (h : ∀ i ∈ t.indexes, ∃ x, schema.type? i = some x) :
    all schema t = .ok (numbered schema t) ∧
      ((∃ other ∈ numbered schema t, Eligible t d other) →
        ∃ c, select schema t d intervals order = .ok (c, score c d intervals order) ∧
          Best t d intervals order (numbered schema t) c) ∧
      ∀ e, select schema t d intervals order = .error e ↔
        e = .unsatisfiable t.name ∧ ∀ other ∈ numbered schema t, ¬ Eligible t d other := by
  have hall : all schema t = .ok (numbered schema t) := all_eq_ok (Schema.indexesOver_eq_ok h)
  have hchosen : (∃ other ∈ numbered schema t, Eligible t d other) →
      ∃ c, select schema t d intervals order = .ok (c, score c d intervals order) ∧
        Best t d intervals order (numbered schema t) c := select_best hall
  refine ⟨hall, hchosen, fun e => ⟨fun he => ?_, ?_⟩⟩
  · have hnone : ∀ other ∈ numbered schema t, ¬ Eligible t d other := by
      intro other hother helig
      obtain ⟨c, hc, -⟩ := hchosen ⟨other, hother, helig⟩
      rw [hc] at he
      cases he
    rw [select_nothing hall hnone] at he
    exact ⟨(Except.error.inj he).symm, hnone⟩
  · rintro ⟨rfl, hnone⟩
    exact select_nothing hall hnone

/-- Edges in the order of one grade, with indexes in the order of another: one that is no longer kept up,
one of outgoing edges, and two that are alike. -/
def gradedSchema : Schema := Schema.after <| [
  Schema.Tables.Call.define (.propertyKey "first" .int),
  .define (.propertyKey "second" .int),
  .define { TypeDefinition.edgeLabel "graded" with sortKey := ["first"] },
  .defineIndex ⟨"graded", "formerly", ["second"], .both, .asc, .disabled⟩,
  .defineIndex ⟨"graded", "outward", ["second"], .out, .asc, .enabled⟩,
  .defineIndex ⟨"graded", "bySecond", ["second"], .both, .asc, .enabled⟩,
  .defineIndex ⟨"graded", "again", ["second"], .both, .asc, .enabled⟩].map Schema.Tables.Call.step

def graded : RelationType := (gradedSchema.named? "graded").getD default

/-- The second grade is three. -/
def secondThree : SortedMap TypeId Interval := .ofList [(⟨1025⟩, .points [.int 3])]

/-- Incoming edges with a second grade of three are read through the first index that may be read. -/
theorem select_firstBest_graded :
    (∀ i ∈ graded.indexes, ∃ x, gradedSchema.type? i = some x) ∧
      ∃ c, select gradedSchema graded .into secondThree .none =
          .ok (c, score c .into secondThree .none) ∧ c.name = "bySecond" ∧
        Best graded .into secondThree .none (numbered gradedSchema graded) c := by
  have hfound : ∀ i ∈ graded.indexes, (gradedSchema.type? i).isSome := by decide +kernel
  have h : ∀ i ∈ graded.indexes, ∃ x, gradedSchema.type? i = some x := fun i hi =>
    Option.isSome_iff_exists.mp (hfound i hi)
  have helig : Eligible graded .into graded := isEligible_iff.mp (by decide +kernel)
  have hname : (select gradedSchema graded .into secondThree .none).toOption.map (·.1.name) =
      some "bySecond" := by
    decide +kernel
  obtain ⟨-, hchosen, -⟩ := select_firstBest gradedSchema graded .into secondThree .none h
  obtain ⟨c, hc, hbest⟩ := hchosen ⟨graded, List.mem_cons_self, helig⟩
  rw [hc] at hname
  exact ⟨h, c, hc, Option.some.inj hname, hbest⟩

end Candidate

end RowGraph
