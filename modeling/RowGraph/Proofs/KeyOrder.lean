import RowGraph.Proofs.ByteOrder
import RowGraph.Value.Key

/-!
# The order of keys

The bytes of a value sort as the value does, in either sort order, whatever follows them.  Two
different values part at a byte (`parts_encode`), so no encoding starts another one, and the values
themselves are totally ordered because their bytes are.

* `compare_encode`: encodings followed by anything compare as the values, an absent one last.
* `encode_prefix_iff`: a string that starts with two encodings starts with one value.
-/

namespace RowGraph.Key

open Bytes (Parts parts_of_ne parts_bigEndian)

/-! ## Numbers and texts -/

theorem parts_ofNat64 {m n : Nat} (hm : m < Word.bound64) (hn : n < Word.bound64) (h : m ≠ n) :
    Parts (compare m n) (ofNat64 m) (ofNat64 n) :=
  parts_bigEndian (by simpa [Word.bound64] using hm) (by simpa [Word.bound64] using hn) h

theorem intPlace_lt (i : Int64) : (i.toInt + Word.bound63).toNat < Word.bound64 := by
  have := i.toInt_lt
  have := i.le_toInt
  simp only [Word.bound63, Word.bound64]
  omega

theorem compare_int64 (i j : Int64) :
    compare i j = compare (i.toInt + Word.bound63).toNat (j.toInt + Word.bound63).toNat := by
  have hi := i.le_toInt
  have hj := j.le_toInt
  unfold Word.bound63
  refine Bytes.compareOfLess_eq ?_ ?_
  · rw [Int64.lt_iff_toInt_lt]
    omega
  · rw [← Int64.toInt_inj]
    omega

theorem floatPlace_lt (x : Binary64) : floatPlace x < Word.bound64 := by
  have := x.bits.toNat_lt
  unfold floatPlace Binary64.isNegative Binary64.signBit Word.bound63 Word.bound64
  split <;> simp_all <;> omega

theorem rank_eq (x : Binary64) : x.rank = (floatPlace x : Int) - Word.bound63 := by
  have := x.bits.toNat_lt
  unfold floatPlace Binary64.rank Binary64.magnitude Binary64.isNegative Binary64.signBit Word.bound63
    Word.bound64
  split <;> simp_all <;> omega

theorem floatPlace_inj {x y : Binary64} (h : floatPlace x = floatPlace y) : x = y := by
  have hx := x.bits.toNat_lt
  have hy := y.bits.toNat_lt
  have hb : x.bits.toNat = y.bits.toNat := by
    unfold floatPlace Binary64.isNegative Binary64.signBit Word.bound63 Word.bound64 at h
    split at h <;> split at h <;> simp_all <;> omega
  cases x
  cases y
  exact congrArg Binary64.mk (UInt64.toNat_inj.mp hb)

theorem compare_binary64 (x y : Binary64) :
    compare x y = compare (floatPlace x) (floatPlace y) := by
  have hx := rank_eq x
  have hy := rank_eq y
  exact Bytes.compareOfLess_eq (by omega) (by omega)

theorem compare_word64 (m n : UInt64) : compare m n = compare m.toNat n.toNat :=
  Bytes.compareOfLess_eq UInt64.lt_iff_toNat_lt UInt64.toNat_inj.symm

theorem parts_escaped {a b : Bytes} (h : a ≠ b) :
    Parts (compare a b) (a.flatMap escapeByte ++ [0, 0]) (b.flatMap escapeByte ++ [0, 0]) := by
  induction a generalizing b with
  | nil =>
    cases b with
    | nil => exact absurd rfl h
    | cons j b =>
      rw [List.compare_nil_cons, List.flatMap_cons, List.flatMap_nil, List.nil_append]
      unfold escapeByte
      split
      · exact ((parts_of_ne (i := 0) (j := 0xFF) (by decide) [] _).append_left [0])
      · rename_i hj
        have hc : compare 0 j = .lt := by
          rw [Bytes.compare_byte, Nat.compare_eq_lt]
          have : j.toNat ≠ 0 := fun e => hj (UInt8.toNat_inj.mp e)
          simp
          omega
        rw [← hc]
        exact parts_of_ne (fun e => hj e.symm) _ _
  | cons i a ih =>
    cases b with
    | nil =>
      rw [List.compare_cons_nil, List.flatMap_cons, List.flatMap_nil, List.nil_append]
      unfold escapeByte
      split
      · exact ((parts_of_ne (i := 0xFF) (j := 0) (by decide) _ []).append_left [0])
      · rename_i hi
        have hc : compare i 0 = .gt := by
          rw [Bytes.compare_byte, Nat.compare_eq_gt]
          have : i.toNat ≠ 0 := fun e => hi (UInt8.toNat_inj.mp e)
          simp
          omega
        rw [← hc]
        exact parts_of_ne hi _ _
    | cons j b =>
      rw [List.compare_cons_cons, List.flatMap_cons, List.flatMap_cons]
      by_cases hij : i = j
      · subst hij
        have hab : a ≠ b := fun e => h (by rw [e])
        have hr : compare i i = .eq := Std.ReflCmp.compare_self
        rw [hr, Ordering.eq_then, List.append_assoc, List.append_assoc]
        exact (ih hab).append_left _
      · have hc : (compare i j).then (compare a b) = compare i j := by
          cases hc : compare i j with
          | eq => exact absurd (Std.LawfulEqCmp.eq_of_compare hc) hij
          | lt => rfl
          | gt => rfl
        rw [hc]
        unfold escapeByte
        split <;> split <;> first
          | exact parts_of_ne hij _ _
          | (rename_i hi hj; exact absurd (hi.trans hj.symm) hij)
          | (rename_i hi _; subst hi; exact parts_of_ne hij _ _)
          | (rename_i _ hj; subst hj; exact parts_of_ne hij _ _)

theorem ofText_inj {s t : String} (h : Bytes.ofText s = Bytes.ofText t) : s = t := by
  unfold Bytes.ofText at h
  have hd : s.toByteArray.data = t.toByteArray.data := Array.toList_inj.mp h
  exact String.toByteArray_inj.mp (ByteArray.ext hd)

/-! ## Values -/

theorem tag_ne {j k : ValueKind} (h : j ≠ k) : tag j ≠ tag k := by
  cases j <;> cases k <;> first | exact absurd rfl h | decide

theorem compare_tag (j k : ValueKind) : compare (tag j) (tag k) = compare j k := by
  cases j <;> cases k <;> rfl

theorem tag_ne_absent (k : ValueKind) : tag k ≠ absentTag := by
  cases k <;> decide

theorem compare_tag_absent (k : ValueKind) : compare (tag k) absentTag = .lt := by
  cases k <;> rfl

theorem ofValue_eq_cons (v : Value) : ∃ s, ofValue v = tag v.kind :: s := by
  cases v <;> exact ⟨_, rfl⟩

theorem compare_of_kind_ne {a b : Value} (h : a.kind ≠ b.kind) :
    compare a b = compare a.kind b.kind := by
  cases a <;> cases b <;> first | rfl | exact absurd rfl h

theorem parts_ofValue {a b : Value} (h : a ≠ b) : Parts (compare a b) (ofValue a) (ofValue b) := by
  by_cases hk : a.kind = b.kind
  · cases a <;> cases b <;> simp only [Value.kind, reduceCtorEq] at hk
    case bool.bool a b =>
      cases a <;> cases b <;> first
        | exact absurd rfl h
        | exact (parts_of_ne (by decide) [] []).append_left [tag .bool]
    case int.int i j =>
      have hc : compare (Value.int i) (Value.int j) = _ := compare_int64 i j
      have hne : (i.toInt + Word.bound63).toNat ≠ (j.toInt + Word.bound63).toNat := by
        intro he
        rw [he, Nat.compare_eq_eq.mpr rfl] at hc
        have hij : compare i j = .eq := hc
        exact h (congrArg Value.int (Std.LawfulEqCmp.eq_of_compare hij))
      rw [hc]
      exact (parts_ofNat64 (intPlace_lt i) (intPlace_lt j) hne).append_left [tag .int]
    case float.float x y =>
      have hne : floatPlace x ≠ floatPlace y := fun he => h (congrArg Value.float (floatPlace_inj he))
      rw [show compare (Value.float x) (Value.float y) = _ from compare_binary64 x y]
      exact (parts_ofNat64 (floatPlace_lt x) (floatPlace_lt y) hne).append_left [tag .float]
    case string.string s t =>
      have hne : Bytes.ofText s ≠ Bytes.ofText t := fun he => h (congrArg Value.string (ofText_inj he))
      exact (parts_escaped hne).append_left [tag .string]
    case vertex.vertex v w =>
      have hne : v.val.toNat ≠ w.val.toNat := by
        intro he
        cases v
        cases w
        exact h (congrArg (Value.vertex ∘ VertexId.mk) (UInt64.toNat_inj.mp he))
      rw [show compare (Value.vertex v) (Value.vertex w) = _ from compare_word64 v.val w.val]
      exact (parts_ofNat64 v.val.toNat_lt w.val.toNat_lt hne).append_left [tag .vertex]
  · obtain ⟨s, hs⟩ := ofValue_eq_cons a
    obtain ⟨t, ht⟩ := ofValue_eq_cons b
    rw [hs, ht, compare_of_kind_ne hk, ← compare_tag]
    exact parts_of_ne (tag_ne hk) s t

theorem compare_self (v : Value) : compare v v = .eq := by
  cases v with
  | float x => exact (compare_binary64 x x).trans Std.ReflCmp.compare_self
  | bool b => exact (Std.ReflCmp.compare_self : compare b b = .eq)
  | int i => exact (Std.ReflCmp.compare_self : compare i i = .eq)
  | string s => exact (Std.ReflCmp.compare_self : compare (Bytes.ofText s) (Bytes.ofText s) = .eq)
  | vertex v => exact (Std.ReflCmp.compare_self : compare v v = .eq)

theorem compare_ofValue (a b : Value) : compare a b = compare (ofValue a) (ofValue b) := by
  by_cases h : a = b
  · subst h
    exact (compare_self a).trans Std.ReflCmp.compare_self.symm
  · exact (parts_ofValue h).compare_eq.symm

theorem ofValue_inj {a b : Value} (h : ofValue a = ofValue b) : a = b := by
  refine Decidable.byContradiction fun hne => ?_
  exact (parts_ofValue hne).not_starts (h ▸ List.prefix_refl _)

end RowGraph.Key

namespace RowGraph

instance : Std.TransOrd Value := transOrd_of_key Key.ofValue Key.compare_ofValue

instance : Std.LawfulEqOrd Value :=
  lawfulEqOrd_of_key Key.ofValue (fun _ _ => Key.ofValue_inj) Key.compare_ofValue

end RowGraph

namespace RowGraph.Key

open Bytes (Parts parts_of_ne)

/-! ## Optional values in a sort order -/

theorem parts_inOrder {c : Ordering} {a b : Bytes} (order : SortOrder) (h : Parts c a b) :
    Parts (order.apply c) (inOrder order a) (inOrder order b) := by
  cases order with
  | asc => exact h
  | desc => exact h.complement

/-- The bytes of two different optional values differ somewhere, as the values compare. -/
theorem parts_encode (order : SortOrder) {x y : Option Value} (h : x ≠ y) :
    Parts (order.apply (Value.cmpAbsentLast x y)) (encode x order) (encode y order) := by
  refine parts_inOrder order ?_
  cases x with
  | none =>
    cases y with
    | none => exact absurd rfl h
    | some b =>
      obtain ⟨s, hs⟩ := ofValue_eq_cons b
      have hc : compare absentTag (tag b.kind) = .gt := by
        exact Std.OrientedCmp.gt_iff_lt.mpr (compare_tag_absent b.kind)
      simp only [hs, Value.cmpAbsentLast, ← hc]
      exact parts_of_ne (tag_ne_absent b.kind).symm [] s
  | some a =>
    cases y with
    | none =>
      obtain ⟨s, hs⟩ := ofValue_eq_cons a
      simp only [hs, Value.cmpAbsentLast, ← compare_tag_absent a.kind]
      exact parts_of_ne (tag_ne_absent a.kind) s []
    | some b => exact parts_ofValue fun e => h (congrArg some e)

theorem cmpAbsentLast_self (x : Option Value) : Value.cmpAbsentLast x x = .eq := by
  cases x with
  | none => rfl
  | some v => exact compare_self v

/-- Encodings followed by anything compare as the values do, if these differ. -/
theorem compare_encode (order : SortOrder) {x y : Option Value} (h : x ≠ y) (s t : Bytes) :
    compare (encode x order ++ s) (encode y order ++ t)
      = order.apply (Value.cmpAbsentLast x y) :=
  (parts_encode order h).compare_append s t

/-- No encoding starts another one. -/
theorem encode_prefix_iff (order : SortOrder) (x y : Option Value) (s t : Bytes) :
    encode x order ++ s <+: encode y order ++ t ↔ x = y ∧ s <+: t := by
  by_cases h : x = y
  · subst h
    simp [List.prefix_append_right_inj]
  · simp only [h, false_and, iff_false]
    exact ((parts_encode order h).append s t).not_starts

/-- An encoding and what follows it can be told apart. -/
theorem encode_append_inj {order : SortOrder} {x y : Option Value} {s t : Bytes}
    (h : encode x order ++ s = encode y order ++ t) : x = y ∧ s = t := by
  obtain ⟨rfl, -⟩ := (encode_prefix_iff order x y s t).mp (h ▸ List.prefix_refl _)
  exact ⟨rfl, List.append_cancel_left h⟩

end RowGraph.Key
