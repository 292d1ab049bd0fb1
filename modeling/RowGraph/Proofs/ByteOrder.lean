import RowGraph.Bytes

/-!
# The order of byte strings

Byte strings compare at the first byte where they differ.  `Parts c a b` says that there is such a
byte and how it compares, so that nothing appended to `a` or `b` changes the outcome
(`Parts.compare_append`); flipping every byte turns it around (`Parts.complement`).

* `nextAfter_bounds`: the strings from `p` up to `nextAfter p` are the extensions of `p`.  This comes from
  what it is to raise one byte (`bounds_raised`) and to put one in front (`Bounds.cons`).
* `nextAfter_le_iff`: the strings from `nextAfter p` on are above `p` and none of its extensions.
* `parts_bigEndian`: numbers of one width differ at a byte, as the numbers compare.
* `eq_of_before`: nothing lies between `p` and `p` with a zero byte appended.
-/

namespace RowGraph.Bytes

theorem compareOfLess_eq {α : Type} [LT α] [DecidableEq α] {a b : α} [Decidable (a < b)] {m n : Nat}
    (hlt : a < b ↔ m < n) (heq : a = b ↔ m = n) : compareOfLessAndEq a b = compare m n := by
  rw [Nat.compare_eq_ite_lt]
  unfold compareOfLessAndEq
  by_cases h : m < n
  · rw [if_pos (hlt.mpr h), if_pos h]
  · by_cases h' : m = n
    · rw [if_neg (mt hlt.mp h), if_pos (heq.mpr h'), if_neg h, if_neg (by omega)]
    · rw [if_neg (mt hlt.mp h), if_neg (mt heq.mp h'), if_neg h, if_pos (by omega)]

theorem compare_congr {m n m' n' : Nat} (h : m < n ↔ m' < n') (h' : n < m ↔ n' < m') :
    compare m n = compare m' n' :=
  compareOfLess_eq h (by omega)

theorem compare_byte (i j : UInt8) : compare i j = compare i.toNat j.toNat :=
  compareOfLess_eq UInt8.lt_iff_toNat_lt UInt8.toNat_inj.symm

theorem compare_append_left (p a b : Bytes) : compare (p ++ a) (p ++ b) = compare a b := by
  induction p with
  | nil => rfl
  | cons x p ih =>
    rw [List.cons_append, List.cons_append, List.compare_cons_cons, ih]
    simp [Std.ReflCmp.compare_self]

/-! ## Strings that part -/

/-- `a` and `b` differ at some byte, where they compare as `c`. -/
def Parts (c : Ordering) (a b : Bytes) : Prop :=
  ∃ p i j a' b', a = p ++ i :: a' ∧ b = p ++ j :: b' ∧ compare i j = c ∧ i ≠ j

variable {c : Ordering} {a b : Bytes}

theorem parts_of_ne {i j : UInt8} (h : i ≠ j) (a b : Bytes) :
    Parts (compare i j) (i :: a) (j :: b) :=
  ⟨[], i, j, a, b, rfl, rfl, rfl, h⟩

theorem Parts.ne_eq (h : Parts c a b) : c ≠ .eq := by
  obtain ⟨p, i, j, a', b', -, -, rfl, hij⟩ := h
  exact fun he => hij (Std.LawfulEqCmp.eq_of_compare he)

theorem Parts.append_left (h : Parts c a b) (q : Bytes) : Parts c (q ++ a) (q ++ b) := by
  obtain ⟨p, i, j, a', b', rfl, rfl, hc, hij⟩ := h
  exact ⟨q ++ p, i, j, a', b', by simp, by simp, hc, hij⟩

theorem Parts.append (h : Parts c a b) (s t : Bytes) : Parts c (a ++ s) (b ++ t) := by
  obtain ⟨p, i, j, a', b', rfl, rfl, hc, hij⟩ := h
  exact ⟨p, i, j, a' ++ s, b' ++ t, by simp, by simp, hc, hij⟩

theorem Parts.compare_eq (h : Parts c a b) : compare a b = c := by
  obtain ⟨p, i, j, a', b', rfl, rfl, rfl, hij⟩ := h
  rw [compare_append_left, List.compare_cons_cons]
  cases hc : compare i j with
  | eq => exact absurd (Std.LawfulEqCmp.eq_of_compare hc) hij
  | lt => rfl
  | gt => rfl

theorem Parts.compare_append (h : Parts c a b) (s t : Bytes) : compare (a ++ s) (b ++ t) = c :=
  (h.append s t).compare_eq

theorem Parts.not_starts (h : Parts c a b) : ¬ a <+: b := by
  obtain ⟨p, i, j, a', b', rfl, rfl, -, hij⟩ := h
  rw [List.prefix_append_right_inj, List.cons_prefix_cons]
  exact fun hp => hij hp.1

theorem Parts.complement (h : Parts c a b) : Parts c.swap a.complement b.complement := by
  obtain ⟨p, i, j, a', b', rfl, rfl, rfl, hij⟩ := h
  refine ⟨complement p, ~~~i, ~~~j, complement a', complement b', by simp [Bytes.complement],
    by simp [Bytes.complement], ?_, fun he => hij (UInt8.not_inj.mp he)⟩
  have hi := i.toNat_lt
  have hj := j.toNat_lt
  rw [← Std.OrientedCmp.eq_swap, compare_byte, compare_byte, UInt8.toNat_not, UInt8.toNat_not]
  simp only [UInt8.size]
  exact compare_congr (by omega) (by omega)

/-! ## Numbers of one width -/

theorem length_bigEndian (w n : Nat) : (bigEndian w n).length = w := by
  induction w generalizing n with
  | zero => rfl
  | succ w ih => simp [bigEndian, ih]

theorem parts_bigEndian {w m n : Nat} (hm : m < Nat.pow 256 w) (hn : n < Nat.pow 256 w)
    (h : m ≠ n) : Parts (compare m n) (bigEndian w m) (bigEndian w n) := by
  induction w generalizing m n with
  | zero =>
    simp only [Nat.pow_eq, Nat.pow_zero] at hm hn
    omega
  | succ w ih =>
    simp only [Nat.pow_eq, Nat.pow_succ] at hm hn ih
    simp only [bigEndian]
    by_cases hd : m / 256 = n / 256
    · have hb : UInt8.ofNat m ≠ UInt8.ofNat n := by
        intro he
        have := congrArg UInt8.toNat he
        simp only [UInt8.toNat_ofNat'] at this
        omega
      have hc : compare (UInt8.ofNat m) (UInt8.ofNat n) = compare m n := by
        rw [compare_byte, UInt8.toNat_ofNat', UInt8.toNat_ofNat']
        exact compare_congr (by omega) (by omega)
      rw [hd, ← hc]
      exact (parts_of_ne hb [] []).append_left _
    · have hc : compare (m / 256) (n / 256) = compare m n :=
        compare_congr (by omega) (by omega)
      rw [← hc]
      exact (ih (by omega) (by omega) hd).append _ _

theorem bigEndian_inj {w m n : Nat} (hm : m < Nat.pow 256 w) (hn : n < Nat.pow 256 w)
    (h : bigEndian w m = bigEndian w n) : m = n := by
  refine Decidable.byContradiction fun hne => ?_
  exact (parts_bigEndian hm hn hne).not_starts (h ▸ List.prefix_refl _)

/-! ## The extensions of a string -/

theorem isLE_iff_starts {p : Bytes} (h : nextAfter p = none) (x : Bytes) :
    (compare p x).isLE ↔ p <+: x := by
  induction p generalizing x with
  | nil => cases x <;> simp [List.compare_nil_cons]
  | cons b p ih =>
    unfold nextAfter at h
    split at h
    · simp at h
    · rename_i hp
      split at h
      · rename_i hb
        subst hb
        cases x with
        | nil => simp [List.compare_cons_nil]
        | cons y x =>
          rw [List.compare_cons_cons, List.cons_prefix_cons, ← ih hp]
          have hy := y.toNat_lt
          by_cases he : 255 = y
          · subst he
            simp
          · have hc : compare (255 : UInt8) y = .gt := by
              rw [compare_byte, Nat.compare_eq_gt]
              have : y.toNat ≠ 255 := fun h => he (UInt8.toNat_inj.mp h.symm)
              simp
              omega
            simp [hc, he]
      · simp at h

/-- The strings from `p` up to `e` are the extensions of `p`. -/
def Bounds (p e : Bytes) : Prop := ∀ x, ((compare p x).isLE ∧ compare x e = .lt) ↔ p <+: x

theorem Bounds.cons {p e : Bytes} (h : Bounds p e) (b : UInt8) : Bounds (b :: p) (b :: e) := by
  intro x
  cases x with
  | nil => simp [List.compare_cons_nil]
  | cons y x =>
    rw [List.compare_cons_cons, List.compare_cons_cons, List.cons_prefix_cons, ← h x]
    by_cases hb : b = y
    · subst hb
      simp
    · have hs : compare b y = (compare y b).swap := Std.OrientedCmp.eq_swap
      cases hc : compare y b with
      | eq => exact absurd (Std.LawfulEqCmp.eq_of_compare hc).symm hb
      | lt => simp [hs, hc, hb]
      | gt => simp [hb]

theorem toNat_add_one {b : UInt8} (hb : b ≠ 0xFF) : (b + 1).toNat = b.toNat + 1 := by
  have hlt := b.toNat_lt
  have hne : b.toNat ≠ 255 := fun h => hb (UInt8.toNat_inj.mp h)
  rw [UInt8.toNat_add]
  simp
  omega

/-- A byte that can be raised, before a string that what comes after it extends. -/
theorem bounds_raised {p : Bytes} {b : UInt8} (hb : b ≠ 0xFF) (h : ∀ x, (compare p x).isLE ↔ p <+: x) :
    Bounds (b :: p) [b + 1] := by
  intro x
  cases x with
  | nil => simp [List.compare_cons_nil]
  | cons y x =>
    rw [List.compare_cons_cons, List.compare_cons_cons, List.cons_prefix_cons, ← h x, compare_byte b,
      compare_byte y, toNat_add_one hb]
    rcases Nat.lt_trichotomy b.toNat y.toNat with hlt | heq | hgt
    · have hne : b ≠ y := fun he => Nat.ne_of_lt hlt (congrArg UInt8.toNat he)
      -- what starts with a greater byte is not below the raised one
      rcases Nat.lt_or_eq_of_le (Nat.succ_le_of_lt hlt) with hy | hy
      · simp [Nat.compare_eq_gt.mpr hy, hne]
      · cases x <;> simp [← hy, hne]
    · obtain rfl := UInt8.toNat_inj.mp heq
      have hraised : compare b.toNat (b.toNat + 1) = .lt := Nat.compare_eq_lt.mpr (Nat.lt_succ_self _)
      simp [hraised]
    · have hne : b ≠ y := fun he => Nat.ne_of_gt hgt (congrArg UInt8.toNat he)
      simp [Nat.compare_eq_gt.mpr hgt, hne]

theorem bounds_nextAfter {p e : Bytes} (h : nextAfter p = some e) : Bounds p e := by
  induction p generalizing e with
  | nil => simp [nextAfter] at h
  | cons b p ih =>
    unfold nextAfter at h
    split at h
    · rename_i up hp
      obtain rfl := Option.some.inj h
      exact (ih hp).cons b
    · rename_i hp
      split at h
      · simp at h
      · rename_i hb
        obtain rfl := Option.some.inj h
        exact bounds_raised hb (isLE_iff_starts hp)

/-- The strings from `p` up to `nextAfter p` are the extensions of `p`. -/
theorem nextAfter_bounds {p e : Bytes} (h : nextAfter p = some e) (x : Bytes) :
    ((compare p x).isLE ∧ compare x e = .lt) ↔ p <+: x :=
  bounds_nextAfter h x

theorem isLE_of_starts {p x : Bytes} (h : p <+: x) : (compare p x).isLE := by
  obtain ⟨s, rfl⟩ := h
  have hs : compare p (p ++ s) = compare [] s := by
    rw [← compare_append_left p [] s, List.append_nil]
  rw [hs]
  cases s <;> simp [List.compare_nil_cons]

theorem lt_nextAfter {p e x : Bytes} (h : nextAfter p = some e) (hx : p <+: x) : compare x e = .lt :=
  ((nextAfter_bounds h x).mpr hx).2

/-- What comes after all extensions of a string comes after the string and does not extend it. -/
theorem nextAfter_le_iff {p e : Bytes} (h : nextAfter p = some e) (x : Bytes) :
    (compare e x).isLE ↔ (compare p x).isLE ∧ ¬ p <+: x := by
  have hnot : (compare e x).isLE ↔ ¬ compare x e = .lt := by
    have hs : compare e x = (compare x e).swap := Std.OrientedCmp.eq_swap
    rw [hs]
    cases compare x e <;> decide
  rw [hnot, ← nextAfter_bounds h x]
  constructor
  · intro hx
    refine ⟨?_, fun hb => hx hb.2⟩
    have hpe : compare p e = .lt := lt_nextAfter h (List.prefix_refl p)
    exact Std.TransCmp.isLE_trans (by rw [hpe]; rfl) (hnot.mpr hx)
  · rintro ⟨hp, hb⟩ hx
    exact hb ⟨hp, hx⟩

theorem lt_nextAfter_iff {p e : Bytes} (h : nextAfter p = some e) (x : Bytes) :
    compare x e = .lt ↔ compare x p = .lt ∨ p <+: x := by
  have hle := nextAfter_le_iff h x
  have he : compare e x = (compare x e).swap := Std.OrientedCmp.eq_swap
  have hp : compare p x = (compare x p).swap := Std.OrientedCmp.eq_swap
  rw [he, hp] at hle
  have hpre : p <+: x → compare x e = .lt := lt_nextAfter h
  revert hle hpre
  cases compare x e <;> cases compare x p <;> simp

theorem nextAfter_isSome {b : UInt8} (h : b ≠ 0xFF) (rest : Bytes) :
    (nextAfter (b :: rest)).isSome := by
  unfold nextAfter
  cases nextAfter rest <;> simp [h]

theorem isLE_nextAfter {p e : Bytes} (h : nextAfter p = some e) : (compare p e).isLE := by
  rw [lt_nextAfter h (List.prefix_refl p)]
  rfl

/-- The longer a string, the sooner its extensions end. -/
theorem nextAfter_anti {p q d e : Bytes} (hp : nextAfter p = some e) (hq : nextAfter q = some d)
    (h : p <+: q) : (compare d e).isLE := by
  rw [nextAfter_le_iff hq]
  have hqe : compare q e = .lt := lt_nextAfter hp h
  refine ⟨by rw [hqe]; rfl, fun hqp => ?_⟩
  have he : compare e e = .lt := lt_nextAfter hp (h.trans hqp)
  simp at he

/-- No string lies between a string and the string with a zero byte appended. -/
theorem eq_of_before {p x : Bytes} (h : (compare p x).isLE) (h' : compare x (p ++ [0]) = .lt) :
    x = p := by
  induction p generalizing x with
  | nil =>
    cases x with
    | nil => rfl
    | cons y x =>
      rw [List.nil_append, List.compare_cons_cons, Ordering.then_eq_lt] at h'
      obtain hy | ⟨-, hx⟩ := h'
      · rw [compare_byte, Nat.compare_eq_lt] at hy
        exact absurd hy (Nat.not_lt_zero _)
      · cases x <;> cases hx
  | cons b p ih =>
    cases x with
    | nil => cases h
    | cons y x =>
      rw [List.cons_append, List.compare_cons_cons, Ordering.then_eq_lt] at h'
      rw [List.compare_cons_cons] at h
      obtain hy | ⟨hy, hx⟩ := h'
      · rw [Std.OrientedCmp.gt_iff_lt.mpr hy] at h
        cases h
      · obtain rfl := Std.LawfulEqCmp.eq_of_compare hy
        rw [hy] at h
        rw [ih h hx]

end RowGraph.Bytes
