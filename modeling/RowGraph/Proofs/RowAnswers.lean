import RowGraph.Proofs.BestResults
import RowGraph.Proofs.ReadLimits
import RowGraph.Proofs.RowReads

/-!
# What one row answers

A read without a limit yields all that counts in its slice.  A read with a limit is repeated with
larger ones until it has yielded as many relations as the query wants or the whole slice was read,
which a row that is no longer than the greatest read cannot escape (`readUntil_yields`).  So running
all reads yields good parts of what counts in the slices, and the answer is the best of it
(`general_limited`), or all of it, arranged, if the query has no limit (`general_arranged`,
`general_unlimited`).
-/

namespace RowGraph

theorem CompiledQuery.isSimple_iff {q : CompiledQuery} :
    q.isSimple = true ↔ ∃ read, q.reads = [read] ∧ read.fitted = true ∧ read.ordered = true := by
  unfold isSimple
  split <;> simp_all

/-- What a simple query finds among what is held, cut. -/
def CompiledQuery.firstOf (q : CompiledQuery) (held : List (Bytes × Relation)) : List Relation :=
  ReadLimit.cut q.limit
    (q.reads.flatMap fun read => (held.filter fun x => read.slice.contains x.1).map (·.2))

theorem CompiledQuery.firstOf_eq {q : CompiledQuery} {row : Row} {held : List (Bytes × Relation)}
    (h : row.Decodes held) : ReadLimit.cut q.limit
      (q.reads.flatMap fun read => row.relations (read.slice.withLimit none)) = q.firstOf held := by
  simp only [h.relations]
  rfl

namespace GraphView

variable {σ : Type} {view : GraphView σ} {inv : σ → Prop} {v : VertexId} {row : Row}
  {condition : Condition} {q : CompiledQuery} {read : PlannedRead} {limit : Nat}

/-- The view reads the slices of a row, all of whose values decode. -/
structure ReadsRow (view : GraphView σ) (inv : σ → Prop) (v : VertexId) (row : Row) : Prop where
  readable : row.Readable
  yields : ∀ slice, (view.read v slice).Yields inv (· = row.relations slice)

/-- The relations in the slice of a read that count. -/
def counting (view : GraphView σ) (v : VertexId) (condition : Condition) (row : Row)
    (read : PlannedRead) : List Relation :=
  view.kept v condition read.fitted (row.relations (read.slice.withLimit none))

/-- All that an answer may be made of: what counts in the slices, and what was added. -/
def candidates (view : GraphView σ) (v : VertexId) (q : CompiledQuery) (condition : Condition)
    (row : Row) : List Relation :=
  q.reads.flatMap (view.counting v condition row) ++
    (view.addedAt v).filter fun r => condition.evaluate r v

theorem candidates_of_decodes {held : List (Bytes × Relation)} (h : row.Decodes held) :
    view.candidates v q condition row =
      (q.reads.flatMap fun read => view.kept v condition read.fitted
        ((held.filter fun x => read.slice.contains x.1).map (·.2))) ++
          (view.addedAt v).filter fun r => condition.evaluate r v := by
  have hcounting : view.counting v condition row = fun read => view.kept v condition read.fitted
      ((held.filter fun x => read.slice.contains x.1).map (·.2)) :=
    funext fun read => by rw [counting, h.relations]
  rw [candidates, hcounting]

theorem mem_kept {fitted : Bool} {relations : List Relation} {r : Relation} :
    r ∈ view.kept v condition fitted relations ↔
      r ∈ relations ∧ view.isRemoved r.id = false ∧ (fitted = true ∨ condition.evaluate r v = true) := by
  simp [kept]

/-- The part of what counts that a read with a limit yields. -/
def countingFirst (view : GraphView σ) (v : VertexId) (condition : Condition) (row : Row)
    (read : PlannedRead) (limit : Nat) : List Relation :=
  view.kept v condition read.fitted ((row.relations (read.slice.withLimit none)).take limit)

theorem countingFirst_starts : view.countingFirst v condition row read limit <+:
    view.counting v condition row read :=
  (List.take_prefix limit _).filter _

theorem countingFirst_eq (h : row.size ≤ limit) :
    view.countingFirst v condition row read limit = view.counting v condition row read := by
  unfold countingFirst counting
  rw [List.take_of_length_le (Nat.le_trans (Row.length_relations_le row read.slice) h)]

/-- Repeated reads yield a first part of what counts that is long enough, or all of it. -/
theorem readUntil_yields (h : view.ReadsRow inv v row) (hsize : row.size ≤ view.hardMax)
    (hmost : view.hardMax ≤ ReadLimit.most) (target : Nat) (hl : 1 ≤ limit) :
    (view.readUntil v condition read target limit).Yields inv fun part =>
      part <+: view.counting v condition row read ∧
        (part = view.counting v condition row read ∨ target ≤ part.length) := by
  induction hn : view.hardMax - limit using Nat.strongRecOn generalizing limit with
  | ind n ih =>
    unfold readUntil
    refine (h.yields _).bind fun found hfound => ?_
    rw [Row.relations_limited h.readable] at hfound
    dsimp only
    split
    · rename_i hmore
      have hle : ReadLimit.next limit view.hardMax ≤ view.hardMax := Nat.min_le_right ..
      exact ih _ (by omega) (by omega) rfl
    · rename_i hdone
      refine Act.yields_pure ?_
      have hpart : view.kept v condition read.fitted found =
          view.countingFirst v condition row read limit := by
        rw [hfound]
        rfl
      rw [hpart] at hdone ⊢
      refine ⟨countingFirst_starts, ?_⟩
      -- reading stops as the slice is exhausted, as enough was found, or at the greatest limit
      by_cases hshort : found.length < limit
      · left
        rw [hfound, List.length_take] at hshort
        unfold countingFirst counting
        rw [List.take_of_length_le (by omega)]
      · by_cases hlarge : limit < view.hardMax
        · have := ReadLimit.lt_next hl hlarge hmost
          exact .inr (by omega)
        · exact .inl (countingFirst_eq (by omega))

/-- A read whose limit is the greatest yields all that counts. -/
theorem readUntil_all (h : view.ReadsRow inv v row) (hsize : row.size ≤ view.hardMax) (target : Nat)
    (hl : view.hardMax ≤ limit) :
    (view.readUntil v condition read target limit).Yields inv
      (· = view.counting v condition row read) := by
  unfold readUntil
  refine (h.yields _).bind fun found hfound => ?_
  rw [Row.relations_limited h.readable] at hfound
  dsimp only
  split
  · rename_i hmore
    have hle : ReadLimit.next limit view.hardMax ≤ view.hardMax := Nat.min_le_right ..
    omega
  · refine Act.yields_pure ?_
    rw [hfound]
    exact countingFirst_eq (by omega)

theorem readAll_unlimited (h : view.ReadsRow inv v row) (hl : read.slice.limit = none) :
    (view.readAll v q condition read).Yields inv (· = view.counting v condition row read) := by
  unfold readAll
  rw [hl]
  refine (h.yields _).bind fun found hfound => Act.yields_pure ?_
  rw [hfound, counting, Row.withLimit_eq_self hl]

/-- Every read yields a good part of what counts in its slice, in an order in which ordered reads come
sorted. -/
theorem readAll_yields (h : view.ReadsRow inv v row) (hsize : row.size ≤ view.hardMax)
    (hmost : view.hardMax ≤ ReadLimit.most) (hl : ∀ l, read.slice.limit = some l → 1 ≤ l)
    {o : ResultOrder} (ho : q.order.isEmpty = true → o.isEmpty = true)
    (hsorted : read.ordered = true → (row.relations (read.slice.withLimit none)).Pairwise
      fun a b => o.cmp v a b ≠ .gt) :
    (view.readAll v q condition read).Yields inv
      (GoodPart (o.cmp v) q.limit (view.counting v condition row read)) := by
  cases hlim : read.slice.limit with
  | none =>
    refine (readAll_unlimited h hlim).mono fun part hpart => ?_
    rw [hpart]
    exact ⟨List.prefix_refl _, .inl rfl⟩
  | some limit =>
    unfold readAll
    rw [hlim]
    dsimp only
    split
    · refine (readUntil_all h hsize q.limit (Nat.le_max_right ..)).mono fun part hpart => ?_
      rw [hpart]
      exact ⟨List.prefix_refl _, .inl rfl⟩
    · rename_i hnow
      refine (readUntil_yields h hsize hmost q.limit (hl limit hlim)).mono ?_
      rintro part ⟨hstarts, hlong⟩
      refine ⟨hstarts, hlong.imp_right fun hle => ⟨hle, ?_⟩⟩
      cases hord : read.ordered with
      | true => exact (hsorted hord).filter _
      | false =>
        exact ResultOrder.pairwise_of_isEmpty (ho (by simpa [hord] using hnow)) v _

/-- The answer to a simple query is what its slice holds, cut. -/
theorem simple_yields (h : view.ReadsRow inv v row) (hreads : q.reads = [read]) :
    (view.simple v q).Yields inv (· = ReadLimit.cut q.limit (row.relations read.slice)) := by
  unfold simple
  rw [hreads]
  refine (h.yields read.slice).bind fun found hfound => Act.yields_pure ?_
  rw [hfound]

/-- The limit of a read that is not below that of the query cuts nothing that the query keeps. -/
theorem cut_relations (h : row.Readable) {s : Slice} {wanted : Nat}
    (hl : (s.limit = none ↔ wanted = ReadLimit.most) ∧ ∀ l, s.limit = some l → wanted ≤ l) :
    ReadLimit.cut wanted (row.relations s) = ReadLimit.cut wanted (row.relations (s.withLimit none)) := by
  cases hs : s.limit with
  | none => rw [Row.withLimit_eq_self hs]
  | some l =>
    have hm : wanted ≠ ReadLimit.most := fun hm => by
      rw [hl.1.mpr hm] at hs
      cases hs
    have hread : row.relations s = (row.relations (s.withLimit none)).take l := by
      rw [← Row.relations_limited h, Row.withLimit_eq_self hs]
    rw [hread, ReadLimit.cut, if_neg hm, ReadLimit.cut, if_neg hm, List.take_take,
      Nat.min_eq_left (hl.2 l hs)]

/-- The answer to a simple query is the part of its whole slice that it keeps. -/
theorem simple_whole (h : view.ReadsRow inv v row) (hsimple : q.isSimple = true)
    (hlimits : q.ReadsEnough) :
    (view.simple v q).Yields inv (· = ReadLimit.cut q.limit
      (q.reads.flatMap fun read => row.relations (read.slice.withLimit none))) := by
  obtain ⟨read, hreads, -⟩ := CompiledQuery.isSimple_iff.mp hsimple
  refine (simple_yields h hreads).mono fun found hfound => ?_
  have hread := hlimits read (by rw [hreads]; exact List.mem_singleton_self _)
  rw [hfound, cut_relations h.readable hread, hreads, List.flatMap_singleton]

/-- Results in the order of the query, if it has one. -/
def arranged (v : VertexId) (q : CompiledQuery) (results : List Relation) : List Relation :=
  if q.order.isEmpty then results else q.order.sort v results

theorem perm_arranged (results : List Relation) : (arranged v q results).Perm results := by
  unfold arranged
  split
  · exact List.Perm.refl _
  · exact q.order.perm_sort v results

theorem pairwise_arranged (results : List Relation) :
    (arranged v q results).Pairwise fun a b => q.order.cmp v a b ≠ .gt := by
  unfold arranged
  split
  · rename_i hempty
    exact ResultOrder.pairwise_of_isEmpty hempty v _
  · exact q.order.pairwise_sort v results

/-- Without a limit the answer is all that counts, arranged. -/
theorem general_arranged (h : view.ReadsRow inv v row) (hq : q.limit = ReadLimit.most)
    (hl : ∀ read ∈ q.reads, read.slice.limit = none) :
    (view.general v q condition).Yields inv (· = arranged v q (view.candidates v q condition row)) := by
  unfold general
  refine (Act.yields_mapM_eq fun read hr => readAll_unlimited h (hl read hr)).bind fun parts hparts => ?_
  refine Act.yields_pure ?_
  rw [hparts, ← List.flatMap_def, ReadLimit.cut, if_pos hq]
  rfl

/-- Without a limit the answer is all that counts, sorted. -/
theorem general_unlimited (h : view.ReadsRow inv v row) (hq : q.limit = ReadLimit.most)
    (hl : ∀ read ∈ q.reads, read.slice.limit = none) :
    (view.general v q condition).Yields inv fun results =>
      results.Perm (view.candidates v q condition row) ∧
        results.Pairwise fun a b => q.order.cmp v a b ≠ .gt := by
  refine (general_arranged h hq hl).mono fun results hresults => ?_
  rw [hresults]
  exact ⟨perm_arranged _, pairwise_arranged _⟩

/-- With a limit the answer is as many as are wanted of what counts, or all of it, sorted, and no
result that was left out is before one that was not, in an order in which ordered reads come sorted. -/
theorem general_limited (h : view.ReadsRow inv v row) (hsize : row.size ≤ view.hardMax)
    (hmost : view.hardMax ≤ ReadLimit.most) (hq : q.limit ≠ ReadLimit.most)
    (hl : ∀ read ∈ q.reads, ∀ l, read.slice.limit = some l → 1 ≤ l) {o : ResultOrder}
    (ho : o = q.order ∨ o.isEmpty = true)
    (hsorted : ∀ read ∈ q.reads, read.ordered = true →
      (row.relations (read.slice.withLimit none)).Pairwise fun a b => o.cmp v a b ≠ .gt) :
    (view.general v q condition).Yields inv fun results =>
      ∃ left, (results ++ left).Perm (view.candidates v q condition row) ∧
        results.length = min q.limit (view.candidates v q condition row).length ∧
        (results.Pairwise fun a b => q.order.cmp v a b ≠ .gt) ∧
        ∀ x ∈ left, ∀ y ∈ results, o.cmp v x y ≠ .lt := by
  have hempty : q.order.isEmpty = true → o.isEmpty = true := by
    rcases ho with rfl | ho
    · exact id
    · exact fun _ => ho
  have harranged (results : List Relation) :
      (arranged v q results).Pairwise fun a b => o.cmp v a b ≠ .gt := by
    rcases ho with rfl | ho
    · exact pairwise_arranged results
    · exact ResultOrder.pairwise_of_isEmpty ho v _
  unfold general
  refine (Act.yields_mapM fun read hr =>
    readAll_yields h hsize hmost (hl read hr) hempty (hsorted read hr)).bind fun parts hparts => ?_
  refine Act.yields_pure ?_
  rw [ReadLimit.cut, if_neg hq]
  obtain ⟨left, hperm, hlen, hbest⟩ := best_of_parts hparts (harranged _) (perm_arranged _)
  exact ⟨left, hperm, hlen, (pairwise_arranged _).sublist (List.take_sublist ..), hbest⟩

end GraphView

end RowGraph
