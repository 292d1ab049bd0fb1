import RowGraph.Proofs.LimitedAnswers

/-!
# Reading again comes to an end

The attempts at a planned read are a loop: a read that filled its limit and of which too little counts
is made again with twice the limit, but no more than the greatest.  A limit of zero would stay zero, and
where every read succeeds such a loop has no end (`not_rereads_zero`).  No read of a compiled query has
that limit, so whatever its reads return, the loop ends, with what `readAll` gives, and its limits climb
up to the greatest (`rereads_climb`).
-/

namespace RowGraph

namespace GraphView

variable {σ : Type} {view : GraphView σ} {v : VertexId} {condition : Condition} {read : PlannedRead}
  {target : Nat} {limit larger : Option Nat} {limits limits' : List (Option Nat)} {s s' s'' : σ}
  {result result' : Outcome (List Relation)}

/-- The limit of the next attempt, if the read filled its limit, too little counts, and the limit is
not yet the greatest. -/
def nextLimit? (view : GraphView σ) (target : Nat) (limit : Option Nat) (found kept : Nat) :
    Option (Option Nat) :=
  match limit with
  | none => none
  | some current =>
    if current ≤ found ∧ kept < target ∧ current < view.hardMax then
      some (some (ReadLimit.next current view.hardMax))
    else none

/-- From `limit` and the state `s` on, the attempts at a read have these `limits`, and the last of them
gives the result. -/
inductive Rereads (view : GraphView σ) (v : VertexId) (condition : Condition) (read : PlannedRead)
    (target : Nat) : Option Nat → σ → List (Option Nat) → Outcome (List Relation) → σ → Prop where
  | failed {limit : Option Nat} {s s' : σ} {e : Failure}
      (hread : (view.read v (read.slice.withLimit limit)).exec s = (.error e, s')) :
      Rereads view v condition read target limit s [limit] (.error e) s'
  | ended {limit : Option Nat} {s s' : σ} {found : List Relation}
      (hread : (view.read v (read.slice.withLimit limit)).exec s = (.ok found, s'))
      (hlast : view.nextLimit? target limit found.length
        (view.kept v condition read.fitted found).length = none) :
      Rereads view v condition read target limit s [limit]
        (.ok (view.kept v condition read.fitted found)) s'
  | again {limit larger : Option Nat} {s s' s'' : σ} {found : List Relation}
      {limits : List (Option Nat)} {result : Outcome (List Relation)}
      (hread : (view.read v (read.slice.withLimit limit)).exec s = (.ok found, s'))
      (hnext : view.nextLimit? target limit found.length
        (view.kept v condition read.fitted found).length = some larger)
      (rest : Rereads view v condition read target larger s' limits result s'') :
      Rereads view v condition read target limit s (limit :: limits) result s''

/-- The limit of the first attempt: an unordered read of an ordered query goes as far as it may. -/
def firstLimit (view : GraphView σ) (q : CompiledQuery) (read : PlannedRead) : Option Nat :=
  read.slice.limit.map fun limit =>
    if !read.ordered && !q.order.isEmpty then max limit view.hardMax else limit

theorem nextLimit?_eq_some {found kept : Nat}
    (h : view.nextLimit? target limit found kept = some larger) :
    ∃ current, limit = some current ∧ current ≤ found ∧ kept < target ∧ current < view.hardMax ∧
      larger = some (ReadLimit.next current view.hardMax) := by
  cases limit with
  | none => cases h
  | some current =>
    simp only [nextLimit?] at h
    split at h
    · rename_i hmore
      exact ⟨current, rfl, hmore.1, hmore.2.1, hmore.2.2, (Option.some.inj h).symm⟩
    · cases h

theorem Rereads.head? (h : view.Rereads v condition read target limit s limits result s') :
    limits.head? = some limit := by
  cases h <;> rfl

/-- The attempts at a read, their result and the state after them are determined. -/
theorem Rereads.unique (h : view.Rereads v condition read target limit s limits result s')
    (h' : view.Rereads v condition read target limit s limits' result' s'') :
    limits = limits' ∧ result = result' ∧ s' = s'' := by
  induction h generalizing limits' result' s'' with
  | failed hread =>
    cases h' with
    | failed hread' => simp_all
    | ended hread' _ => simp_all
    | again hread' _ _ => simp_all
  | ended hread hlast =>
    cases h' with
    | failed hread' => simp_all
    | ended hread' _ => simp_all
    | again hread' hnext _ => simp_all
  | again hread hnext rest ih =>
    cases h' with
    | failed hread' => simp_all
    | ended hread' hlast => simp_all
    | again hread' hnext' rest' =>
      obtain ⟨hfound, rfl⟩ := Prod.mk.inj (hread.symm.trans hread')
      obtain rfl := Except.ok.inj hfound
      obtain rfl := Option.some.inj (hnext.symm.trans hnext')
      obtain ⟨rfl, rfl, rfl⟩ := ih rest'
      exact ⟨rfl, rfl, rfl⟩

/-- With a limit of zero a read that always succeeds would be made again and again. -/
theorem not_rereads_zero (hmax : 1 ≤ view.hardMax)
    (hread : ∀ slice s, ∃ found s', (view.read v slice).exec s = (.ok found, s') ∧
      (view.kept v condition read.fitted found).length < target) :
    ¬ view.Rereads v condition read target (some 0) s limits result s' := by
  intro h
  generalize hzero : some 0 = limit at h
  induction h with
  | failed hfailed =>
    obtain ⟨found, _, hfound, -⟩ := hread _ _
    rw [hfound] at hfailed
    cases hfailed
  | ended hended hlast =>
    subst hzero
    obtain ⟨found, _, hfound, hfew⟩ := hread _ _
    rw [hfound] at hended
    cases hended
    rw [nextLimit?, if_pos ⟨Nat.zero_le _, hfew, hmax⟩] at hlast
    cases hlast
  | again _ hnext _ ih =>
    subst hzero
    obtain ⟨current, hcurrent, -, -, -, rfl⟩ := nextLimit?_eq_some hnext
    obtain rfl := Option.some.inj hcurrent
    exact ih (by simp [ReadLimit.next, ReadLimit.times])

/-! ## Climbing limits -/

/-- The one limit is below the other. -/
def Below (a b : Option Nat) : Prop := ∃ m n, a = some m ∧ b = some n ∧ m < n

/-- Limits that begin with one that is not zero, each above the one before, and none above the first
and the greatest. -/
structure Climbs (view : GraphView σ) (first : Option Nat) (limits : List (Option Nat)) : Prop where
  begins : limits.head? = some first
  positive : first ≠ some 0
  rising : limits.IsChain Below
  bounded : ∀ n, some n ∈ limits → ∃ m, first = some m ∧ n ≤ max m view.hardMax

theorem climbs_singleton (hpos : limit ≠ some 0) : view.Climbs limit [limit] where
  begins := rfl
  positive := hpos
  rising := List.IsChain.singleton _
  bounded n hn := ⟨n, (List.mem_singleton.mp hn).symm, Nat.le_max_left ..⟩

/-- One more attempt before those that climb. -/
theorem Climbs.cons {current next : Nat} (hpos : 1 ≤ current) (hlt : current < next)
    (hle : next ≤ view.hardMax) (h : view.Climbs (some next) limits) :
    view.Climbs (some current) (some current :: limits) where
  begins := rfl
  positive hzero := by
    obtain rfl := Option.some.inj hzero
    omega
  rising := by
    obtain ⟨rest, rfl⟩ := List.head?_eq_some_iff.mp h.begins
    exact List.isChain_cons_cons.mpr ⟨⟨current, next, rfl, rfl, hlt⟩, h.rising⟩
  bounded n hn := by
    refine ⟨current, rfl, ?_⟩
    rcases List.mem_cons.mp hn with hn | hn
    · obtain rfl := Option.some.inj hn
      exact Nat.le_max_left ..
    · obtain ⟨m, hm, hn⟩ := h.bounded n hn
      obtain rfl := Option.some.inj hm
      omega

/-- Any attempts at a read that begin with a limit other than zero have limits that climb. -/
theorem Rereads.climbs (h : view.Rereads v condition read target limit s limits result s')
    (hpos : limit ≠ some 0) (hmost : view.hardMax ≤ ReadLimit.most) : view.Climbs limit limits := by
  induction h with
  | failed _ => exact climbs_singleton hpos
  | ended _ _ => exact climbs_singleton hpos
  | again _ hnext _ ih =>
    obtain ⟨current, rfl, -, -, hlt, rfl⟩ := nextLimit?_eq_some hnext
    have hcurrent : 1 ≤ current := Nat.one_le_iff_ne_zero.mpr fun h => hpos (congrArg some h)
    have hrises := ReadLimit.lt_next hcurrent hlt hmost
    refine Climbs.cons hcurrent hrises (Nat.min_le_right ..) (ih fun hzero => ?_)
    have := Option.some.inj hzero
    omega

/-! ## The reads of a query -/

/-- The attempts at a read whose limit is not zero come to an end. -/
theorem rereads_readUntil (hmost : view.hardMax ≤ ReadLimit.most) {limit : Nat} (hl : 1 ≤ limit)
    (s : σ) :
    ∃ limits, view.Rereads v condition read target (some limit) s limits
      ((view.readUntil v condition read target limit).exec s).1
      ((view.readUntil v condition read target limit).exec s).2 := by
  -- each attempt is nearer to the greatest limit than the one before
  induction hn : view.hardMax - limit using Nat.strongRecOn generalizing limit s with
  | ind n ih =>
    rw [readUntil]
    cases hread : (view.read v (read.slice.withLimit (some limit))).exec s with
    | mk outcome s₁ =>
      cases outcome with
      | error e =>
        rw [Act.exec_bind_error hread]
        exact ⟨_, .failed hread⟩
      | ok found =>
        rw [Act.exec_bind_ok hread]
        dsimp only
        by_cases hmore : limit ≤ found.length ∧
            (view.kept v condition read.fitted found).length < target ∧ limit < view.hardMax
        · have hlt := ReadLimit.lt_next hl hmore.2.2 hmost
          have hle : ReadLimit.next limit view.hardMax ≤ view.hardMax := Nat.min_le_right ..
          rw [if_pos ⟨hmore.1, hmore.2.1, hlt⟩]
          obtain ⟨limits, hrest⟩ := ih (view.hardMax - ReadLimit.next limit view.hardMax) (by omega)
            (Nat.le_of_lt (Nat.lt_of_le_of_lt hl hlt)) s₁ rfl
          exact ⟨_, .again hread (if_pos hmore) hrest⟩
        · have hle : ReadLimit.next limit view.hardMax ≤ view.hardMax := Nat.min_le_right ..
          rw [if_neg fun h => hmore ⟨h.1, h.2.1, by omega⟩]
          exact ⟨_, .ended hread (if_neg hmore)⟩

/-- A read without a limit is made once, one with a limit other than zero until it ends. -/
theorem rereads_readAll {q : CompiledQuery} (hmost : view.hardMax ≤ ReadLimit.most)
    (hpos : ∀ l, read.slice.limit = some l → 1 ≤ l) (s : σ) :
    ∃ limits, view.Rereads v condition read q.limit (view.firstLimit q read) s limits
      ((view.readAll v q condition read).exec s).1 ((view.readAll v q condition read).exec s).2 := by
  unfold readAll firstLimit
  cases hlimit : read.slice.limit with
  | none =>
    have hslice : read.slice.withLimit none = read.slice := by rw [← hlimit]; rfl
    cases hread : (view.read v read.slice).exec s with
    | mk outcome s₁ =>
      cases outcome with
      | error e =>
        simp only [Act.exec_bind_error hread]
        exact ⟨_, .failed (hslice ▸ hread)⟩
      | ok found =>
        simp only [Act.exec_bind_ok hread]
        exact ⟨_, .ended (hslice ▸ hread) rfl⟩
  | some l =>
    have hl := hpos l hlimit
    refine rereads_readUntil hmost ?_ s
    split
    · exact Nat.le_trans hl (Nat.le_max_left ..)
    · exact hl

end GraphView

variable {s : Query.Setting} {q : Query} {category : Category} {compiled : CompiledQuery} {read : PlannedRead}

/-- No read of a compiled query has a limit of zero. -/
theorem Query.compile_positive (h : q.compile s category = .ok compiled) (hr : read ∈ compiled.reads)
    {l : Nat} (hl : read.slice.limit = some l) : 1 ≤ l := by
  have hne : compiled.isEmpty = false := List.isEmpty_eq_false_iff.mpr (List.ne_nil_of_mem hr)
  have hcovers := (compile_limits h hne).2.2 read hr
  have := hcovers.2 l hl
  have := limit_ne_zero h hne
  omega

/-- Whatever its reads return, the attempts at a read of a compiled query come to an end, and their
limits climb. -/
theorem GraphView.rereads_climb {σ : Type} (h : q.compile s category = .ok compiled)
    (hr : read ∈ compiled.reads) (view : GraphView σ) (hmost : view.hardMax ≤ ReadLimit.most)
    (v : VertexId) (condition : Condition) (st : σ) :
    ∃ limits result st',
      (view.readAll v compiled condition read).exec st = (result, st') ∧
      (∀ limits' result' st'', view.Rereads v condition read compiled.limit
          (view.firstLimit compiled read) st limits' result' st'' ↔
        limits' = limits ∧ result' = result ∧ st'' = st') ∧
      view.Climbs (view.firstLimit compiled read) limits := by
  obtain ⟨limits, hrun⟩ : ∃ limits, view.Rereads v condition read compiled.limit
      (view.firstLimit compiled read) st limits ((view.readAll v compiled condition read).exec st).1
      ((view.readAll v compiled condition read).exec st).2 :=
    GraphView.rereads_readAll hmost (fun l hl => Query.compile_positive h hr hl) st
  have hpos : view.firstLimit compiled read ≠ some 0 := by
    intro hz
    obtain ⟨l, hl, hz⟩ := Option.map_eq_some_iff.mp hz
    have := Query.compile_positive h hr hl
    split at hz <;> omega
  refine ⟨limits, _, _, rfl, fun limits' result' st'' => ⟨fun hrun' => hrun'.unique hrun, ?_⟩,
    hrun.climbs hpos hmost⟩
  rintro ⟨rfl, rfl, rfl⟩
  exact hrun

/-- Reads that fill their limits with relations that are removed, so that none of them ever counts. -/
def Rated.flooded : GraphView Unit where
  hardMax := 10
  dedup := false
  read _ slice := pure (List.replicate (slice.limit.getD 0) (rating 9 9))
  addedAt _ := []
  isRemoved _ := true
  isLoaded _ := true
  isPartitioned _ := false
  representatives v _ := [v]
  canonical v := v

namespace Rated

variable {v : VertexId} {condition : Condition} {read : PlannedRead} {target : Nat}
  {limits : List (Option Nat)}

theorem read_flooded (v : VertexId) (slice : Slice) (limit : Nat) :
    (flooded.read v (slice.withLimit (some limit))).exec () =
      (.ok (List.replicate limit (rating 9 9)), ()) := rfl

theorem flooded_again (ht : 0 < target) (limit : Nat) (h : limit < 10)
    (rest : flooded.Rereads v condition read target (some (ReadLimit.next limit 10)) () limits (.ok []) ()) :
    flooded.Rereads v condition read target (some limit) () (some limit :: limits) (.ok []) () := by
  refine .again (read_flooded v read.slice limit) ?_ rest
  simp [GraphView.nextLimit?, GraphView.kept, flooded, ht, h]

theorem flooded_ended : flooded.Rereads v condition read target (some 10) () [some 10] (.ok []) () := by
  have hkept : flooded.kept v condition read.fitted (List.replicate 10 (rating 9 9)) = [] := by
    simp [GraphView.kept, flooded]
  rw [← hkept]
  refine .ended (read_flooded v read.slice 10) ?_
  simp [GraphView.nextLimit?, flooded]

end Rated

/-- For one rating that is not found, the row is read five times. -/
theorem rereads_climb_flooded :
    ∃ read ∈ Rated.compiled.reads, ∃ limits result st',
      (Rated.flooded.readAll ⟨1⟩ Rated.compiled (Rated.compiled.bind ⟨1⟩ none) read).exec () =
        (result, st') ∧
      limits = [some 1, some 2, some 4, some 8, some 10] ∧
      Rated.flooded.Climbs (Rated.flooded.firstLimit Rated.compiled read) limits := by
  have hmem : Rated.compiled.reads.headD default ∈ Rated.compiled.reads := by decide +kernel
  have hfirst : Rated.flooded.firstLimit Rated.compiled (Rated.compiled.reads.headD default) = some 1 := by
    decide +kernel
  have htarget : 0 < Rated.compiled.limit := by decide +kernel
  generalize Rated.compiled.reads.headD default = read at hmem hfirst
  obtain ⟨limits, result, st', hexec, hruns, hclimbs⟩ := GraphView.rereads_climb Rated.compile_eq hmem
    Rated.flooded (by decide +kernel) ⟨1⟩ (Rated.compiled.bind ⟨1⟩ none) ()
  rw [hfirst] at hruns
  have hrun := (hruns [some 1, some 2, some 4, some 8, some 10] (.ok []) ()).mp <|
    Rated.flooded_again htarget 1 (by decide) <| Rated.flooded_again htarget 2 (by decide) <|
    Rated.flooded_again htarget 4 (by decide) <| Rated.flooded_again htarget 8 (by decide)
    Rated.flooded_ended
  exact ⟨read, hmem, limits, result, st', hexec, hrun.1.symm, hclimbs⟩

end RowGraph
