import RowGraph.Proofs.RowReads

/-!
# Reads that cover others

A row is read from the front, so a limit cuts off the end of what a slice holds.  Of a slice and a
narrower one, both with limits, the wider may therefore be used up by columns that stand before the
narrower range, and `Slice.subsumes`, which compares ranges and limits, says nothing about these.

* `Row.read_append`: adjoining ranges read one after another.
* `Memory.read_covers_iff`: when the entries of a subsumed slice are read by the subsuming one, which is
  always so if that one has no limit or both start alike.
* `subsumed_unread`: an entry that is not.
-/

namespace RowGraph

/-! ## What is taken from the front -/

section

variable {α : Type} {l first second ahead part : List α}

/-- A sorted list that is filtered by one test or another falls into two parts, if nothing that passes
the second test comes before something that passes the first. -/
theorem filter_or_of_pairwise {p q : α → Bool} (hpq : ∀ x, p x = true → q x = false)
    (h : l.Pairwise fun x y => q x = true → p y = false) :
    l.filter (fun x => p x || q x) = l.filter p ++ l.filter q := by
  induction l with
  | nil => rfl
  | cons x l ih =>
    obtain ⟨hx, hl⟩ := List.pairwise_cons.mp h
    by_cases hp : p x = true
    · simp [hp, hpq x hp, ih hl]
    · by_cases hq : q x = true
      · have hnone : l.filter p = [] := by
          rw [List.filter_eq_nil_iff]
          intro y hy
          simp [hx y hy hq]
        simp [hp, hq, ih hl, hnone]
      · simp [hp, hq, ih hl]

/-- Of a list without repetition the first `n` elements take in a part of it just if the part is empty or
ends among them. -/
theorem subset_take_iff (hl : l.Nodup) (h : ahead ++ part <+: l) (n : Nat) :
    (∀ x ∈ part, x ∈ l.take n) ↔ part = [] ∨ ahead.length + part.length ≤ n := by
  constructor
  · intro hall
    by_contra hnot
    obtain ⟨hne, hlen⟩ := not_or.mp hnot
    -- the last element of the part stands behind the first `n`, and nowhere else
    obtain ⟨init, x, rfl⟩ := (List.eq_nil_or_concat' part).resolve_left hne
    obtain ⟨rest, rfl⟩ := h
    have hassoc : ahead ++ (init ++ [x]) ++ rest = (ahead ++ init) ++ (x :: rest) := by simp
    rw [hassoc] at hl hall
    have hearly : (ahead ++ init ++ x :: rest).take n <+: ahead ++ init := by
      rw [List.take_append_of_le_length (by simp at hlen ⊢; omega)]
      exact List.take_prefix n _
    have hmem : x ∈ ahead ++ init := hearly.subset (hall x (by simp))
    exact (List.nodup_append.mp hl).2.2 x hmem x (by simp) rfl
  · rintro (rfl | hlen) x hx
    · cases hx
    · have htake : ahead ++ part <+: l.take n := by
        rw [List.prefix_take_iff]
        exact ⟨h, by simpa using hlen⟩
      exact htake.subset (List.mem_append_right _ hx)

end

/-! ## Ranges of a row -/

theorem Bytes.isLE_eq_not_before (x y : Bytes) : (compare x y).isLE = !y.before x := by
  have hswap : compare x y = (compare y x).swap := Std.OrientedCmp.eq_swap
  unfold before
  rw [hswap]
  cases compare y x <;> rfl

namespace Slice

variable {x y z c d : Bytes}

/-- The columns of a range are those of its two parts. -/
theorem contains_append (hxy : (compare x y).isLE) (hyz : (compare y z).isLE) (c : Bytes) :
    (⟨x, z, none⟩ : Slice).contains c =
      ((⟨x, y, none⟩ : Slice).contains c || (⟨y, z, none⟩ : Slice).contains c) := by
  unfold contains
  by_cases hc : c.before y = true
  · have hz : c.before z = true := beq_iff_eq.mpr (Std.TransCmp.lt_of_lt_of_isLE (beq_iff_eq.mp hc) hyz)
    simp [Bytes.isLE_eq_not_before y, hc, hz]
  · have hy : (compare y c).isLE := by simpa [Bytes.isLE_eq_not_before] using hc
    have hx : (compare x c).isLE := Std.TransCmp.isLE_trans hxy hy
    simp [hc, hx, hy]

/-- What stands in the second part of a range is followed by nothing of the first. -/
theorem contains_apart (hc : (⟨y, z, none⟩ : Slice).contains c = true) (hcd : (compare c d).isLE) :
    (⟨x, y, none⟩ : Slice).contains d = false := by
  simp only [contains, Bool.and_eq_true] at hc
  have hyd : (compare y d).isLE := Std.TransCmp.isLE_trans hc.1 hcd
  have hnot : d.before y = false := by simpa [Bytes.isLE_eq_not_before] using hyd
  simp [contains, hnot]

end Slice

namespace Row

variable {row : Row} {x y z : Bytes} {a b : Slice}

/-- A range that is cut in two is read as the one part and then the other. -/
theorem read_append (row : Row) (hxy : (compare x y).isLE) (hyz : (compare y z).isLE) :
    row.read ⟨x, z, none⟩ = row.read ⟨x, y, none⟩ ++ row.read ⟨y, z, none⟩ := by
  unfold read
  simp only [← List.map_append, Slice.contains_append hxy hyz]
  congr 1
  refine filter_or_of_pairwise ?_ (row.increasing.imp ?_)
  · intro c hc
    by_contra hnot
    rw [Slice.contains_apart (Bool.not_eq_false _ ▸ hnot) Std.ReflCmp.isLE_rfl] at hc
    cases hc
  · intro c d hlt hc
    exact Slice.contains_apart hc (by simp [hlt])

theorem nodup_read (row : Row) (s : Slice) : (row.read s).Nodup := by
  have hall : (row.read (s.withLimit none)).Nodup := by
    simp only [read, Slice.withLimit]
    refine List.Pairwise.map _ ?_ (row.increasing.filter _)
    intro c d hlt he
    rw [(Entry.mk.inj he).1, SortedMap.compare_eq_iff.mpr rfl] at hlt
    cases hlt
  cases hs : s.limit with
  | none => rwa [withLimit_eq_self hs] at hall
  | some n =>
    rw [← withLimit_eq_self hs, read_limited]
    exact hall.sublist (List.take_sublist n _)

/-- A slice without a limit holds what stands before a subsumed one and then what that one reads. -/
theorem ahead_append_read_prefix (h : a.subsumes b = true) (hne : row.read b ≠ []) :
    row.read ⟨a.start, b.start, none⟩ ++ row.read b <+: row.read (a.withLimit none) := by
  unfold Slice.subsumes at h
  simp only [Bool.and_eq_true] at h
  obtain ⟨⟨hstart, hstop⟩, -⟩ := h
  -- the range of `b` is not empty, as it holds an entry
  obtain ⟨e, he⟩ := List.exists_mem_of_ne_nil _ hne
  have hcontains := (mem_read_unlimited.mp (read_subset he)).2
  simp only [Slice.contains, Bytes.before, Bool.and_eq_true, beq_iff_eq] at hcontains
  have hrange : (compare b.start b.stop).isLE :=
    Std.TransCmp.isLE_trans hcontains.1 (by simp [hcontains.2])
  have hread : row.read b <+: row.read (b.withLimit none) := by
    cases hb : b.limit with
    | none => exact (withLimit_eq_self hb).symm ▸ List.prefix_rfl
    | some n =>
      nth_rewrite 1 [← withLimit_eq_self hb]
      rw [read_limited]
      exact List.take_prefix n _
  have hcut : row.read (a.withLimit none) = row.read ⟨a.start, b.start, none⟩ ++
      (row.read (b.withLimit none) ++ row.read ⟨b.stop, a.stop, none⟩) := by
    unfold Slice.withLimit
    rw [← read_append row hrange hstop,
      ← read_append row hstart (Std.TransCmp.isLE_trans hrange hstop)]
  rw [hcut]
  exact List.prefix_append_right_inj _ |>.mpr (hread.trans (List.prefix_append _ _))

/-- The entries of a subsumed slice are read by the subsuming one just if there are none or the columns
before them leave room for them under the limit. -/
theorem read_subset_iff (row : Row) (h : a.subsumes b = true) :
    (∀ e ∈ row.read b, e ∈ row.read a) ↔ row.read b = [] ∨ ∀ n, a.limit = some n →
      (row.read ⟨a.start, b.start, none⟩).length + (row.read b).length ≤ n := by
  by_cases hne : row.read b = []
  · simp [hne]
  · have hprefix := ahead_append_read_prefix h hne
    cases ha : a.limit with
    | none =>
      rw [withLimit_eq_self ha] at hprefix
      simpa using fun e he => hprefix.subset (List.mem_append_right _ he)
    | some n =>
      have htake : row.read a = (row.read (a.withLimit none)).take n := by
        rw [← read_limited, withLimit_eq_self ha]
      rw [htake, subset_take_iff (nodup_read row _) hprefix]
      simp [hne]

/-- A slice that starts where a subsumed one does has nothing before it. -/
theorem room_of_start_eq (row : Row) (h : a.subsumes b = true) (hs : a.start = b.start) (n : Nat)
    (ha : a.limit = some n) :
    (row.read ⟨a.start, b.start, none⟩).length + (row.read b).length ≤ n := by
  have hnothing : row.read ⟨a.start, b.start, none⟩ = [] := by
    rw [List.eq_nil_iff_forall_not_mem]
    intro e he
    have hc := (mem_read_unlimited (s := ⟨a.start, b.start, none⟩) |>.mp he).2
    rw [Slice.contains, Bytes.isLE_eq_not_before, hs] at hc
    simp at hc
  rw [hnothing]
  unfold Slice.subsumes at h
  rw [ha] at h
  cases hb : b.limit with
  | none => simp [hb] at h
  | some k =>
    simp only [hb, Bool.and_eq_true, decide_eq_true_eq] at h
    have hlen : (row.read b).length ≤ k := by
      rw [← withLimit_eq_self hb, read_limited]
      exact List.length_take_le k _
    simp only [List.length_nil]
    omega

end Row

/-! ## Reading memory -/

namespace Memory

/-- Reading a slice and one that it subsumes, both succeed, and what the second returns the first returns
too just if nothing is returned or the limit of the first has room for it after the columns before the
second.  Without a limit of the first, or if both start at one column, that is always so. -/
theorem read_covers_iff (features : Features) (m : Memory) (store : StoreHandle) (key : Bytes)
    (tx : TxHandle) {a b : Slice} (h : a.subsumes b = true) :
    ∃ mine theirs ahead,
      ((backend features).read store key a tx).exec m = (.ok mine, m) ∧
      ((backend features).read store key b tx).exec m = (.ok theirs, m) ∧
      ((backend features).read store key ⟨a.start, b.start, none⟩ tx).exec m = (.ok ahead, m) ∧
      ((∀ e ∈ theirs, e ∈ mine) ↔
        theirs = [] ∨ ∀ n, a.limit = some n → ahead.length + theirs.length ≤ n) ∧
      (a.limit = none ∨ a.start = b.start → ∀ e ∈ theirs, e ∈ mine) := by
  have hiff := ((m.table store.number).row key).read_subset_iff h
  refine ⟨_, _, _, rfl, rfl, rfl, hiff, ?_⟩
  rintro (hnone | hstart)
  · exact hiff.mpr (.inr (by simp [hnone]))
  · exact hiff.mpr (.inr (((m.table store.number).row key).room_of_start_eq h hstart))

/-- One store with one row, of the columns 1, 6 and 7. -/
def threeColumns : Memory :=
  ((Memory.new.store "s").2).mutate 0 [1] ⟨[⟨[1], [1]⟩, ⟨[6], [2]⟩, ⟨[7], [3]⟩], []⟩

/-- The first two of all columns take in the first column from 5 on. -/
theorem read_covers_iff_two :
    (⟨[0], [255], some 2⟩ : Slice).subsumes ⟨[5], [255], some 1⟩ = true ∧
      ∃ mine theirs,
        ((backend defaultFeatures).read ⟨0, "s"⟩ [1] ⟨[0], [255], some 2⟩ ⟨1⟩).exec threeColumns =
          (.ok mine, threeColumns) ∧
        ((backend defaultFeatures).read ⟨0, "s"⟩ [1] ⟨[5], [255], some 1⟩ ⟨1⟩).exec threeColumns =
          (.ok theirs, threeColumns) ∧
        theirs = [⟨[6], [2]⟩] ∧ ∀ e ∈ theirs, e ∈ mine := by
  have h : (⟨[0], [255], some 2⟩ : Slice).subsumes ⟨[5], [255], some 1⟩ = true := by decide
  obtain ⟨mine, theirs, ahead, hmine, htheirs, hahead, hiff, -⟩ :=
    read_covers_iff defaultFeatures threeColumns ⟨0, "s"⟩ [1] ⟨1⟩ h
  have htheirs' : theirs = [⟨[6], [2]⟩] :=
    (Except.ok.inj (congrArg Prod.fst htheirs)).symm.trans (by decide +kernel)
  have hahead' : ahead = [⟨[1], [1]⟩] :=
    (Except.ok.inj (congrArg Prod.fst hahead)).symm.trans (by decide +kernel)
  refine ⟨h, mine, theirs, hmine, htheirs, htheirs', hiff.mpr (.inr ?_)⟩
  intro n hn
  obtain rfl := Option.some.inj hn
  rw [htheirs', hahead']
  decide

/-- The first column of all is not the first one from 5 on, and yet the one slice is said to return what
the other returns. -/
theorem subsumed_unread :
    (⟨[0], [255], some 1⟩ : Slice).subsumes ⟨[5], [255], some 1⟩ = true ∧
      (((backend defaultFeatures).read ⟨0, "s"⟩ [1] ⟨[5], [255], some 1⟩ ⟨1⟩).exec
        threeColumns).1.toOption = some [⟨[6], [2]⟩] ∧
      (((backend defaultFeatures).read ⟨0, "s"⟩ [1] ⟨[0], [255], some 1⟩ ⟨1⟩).exec
        threeColumns).1.toOption = some [⟨[1], [1]⟩] := by
  decide +kernel

end Memory

end RowGraph
