import RowGraph.Decimal.Notation
import RowGraph.Proofs.JsonLexemes

/-!
# The text of a number is a number

The stored text of a finite number is spelled as a number is (`isNumber_text`).  The layouts put digits, zeros
and one point together; the only spelling a reader would refuse is a whole part that starts with zero, and the
shortest decimal of a number has no zero in front, since the interval it lies in keeps off zero
(`ofNumber_digits`).
-/

namespace RowGraph

/-! ## The shortest decimal is not zero -/

namespace Shortest

variable {tie : Tie} {b : Basin} {k : Int} {a : Nat}

theorem low_basin {m : Nat} (h : m ≠ 0) : 0 < (basin m).low := by
  have hstep : 0 < Nat.pow 2 (Binary64.scale m) := Nat.pow_pos (by decide)
  have hsignificand : 1 ≤ Binary64.significand m := by
    unfold Binary64.significand
    have hfraction : 0 < Binary64.fractionBound := by decide
    split
    · rename_i hsmall
      have hm : m < Binary64.fractionBound := (Nat.div_eq_zero_iff_lt hfraction).mp hsmall
      rw [Nat.mod_eq_of_lt hm]
      omega
    · omega
  have hvalue : Nat.pow 2 (Binary64.scale m) ≤ Binary64.significand m * Nat.pow 2 (Binary64.scale m) :=
    Nat.le_mul_of_pos_left _ hsignificand
  unfold basin
  dsimp only
  split <;> omega

/-- A basin above zero does not hold zero. -/
theorem holds_zero (hlow : 0 < b.low) {q : Nat} (hq : 0 < q) : b.holds 0 q = false := by
  have hpos : 0 < b.low * q := Nat.mul_pos hlow hq
  have hopen : ¬ b.low * q < 0 := by omega
  have hclosed : ¬ b.low * q ≤ 0 := by omega
  unfold Basin.holds
  split
  · rw [decide_eq_false hclosed, Bool.false_and]
  · rw [decide_eq_false hopen, Bool.false_and]

/-- A grid point that is written is not zero: the lower neighbour is not taken if it is zero. -/
theorem onGrid_pos (hlow : 0 < b.low) (h : onGrid tie b k = some a) : 0 < a := by
  unfold onGrid at h
  dsimp only at h
  generalize hq : (if 0 ≤ k then 1 else Nat.pow 10 (-k).toNat) = q at h
  generalize (if 0 ≤ k then Nat.pow 10 k.toNat * basinUnits else basinUnits) = step at h
  generalize b.value * q / step = lower at h
  have hqpos : 0 < q := by
    rw [← hq]
    split
    · exact Nat.one_pos
    · exact Nat.pow_pos (by decide)
  have hdown : b.holds (lower * step) q = true → 0 < lower := by
    intro hholds
    by_contra hzero
    rw [Nat.eq_zero_of_not_pos hzero, Nat.zero_mul, holds_zero hlow hqpos] at hholds
    cases hholds
  split at h
  · rename_i hboth
    have hpos : 0 < lower := hdown (Bool.and_eq_true_iff.mp hboth).1
    split at h
    · cases h
      exact hpos
    · split at h
      · cases h
        exact Nat.succ_pos lower
      · cases tie <;> cases h <;> omega
  · split at h
    · rename_i hholds
      cases h
      exact hdown hholds
    · split at h
      · cases h
        exact Nat.succ_pos lower
      · cases h

theorem search_digits (hlow : 0 < b.low) (place : Int) (n left : Nat) :
    0 < (search tie b place n left).digits ∨ search tie b place n left = ⟨0, 0⟩ := by
  induction left generalizing n with
  | zero => exact .inr rfl
  | succ left ih =>
    rw [search]
    split
    · rename_i hgrid
      exact .inl (onGrid_pos hlow hgrid)
    · exact ih (n + 1)

/-- The digits of the shortest decimal are not zero, unless none was found. -/
theorem ofNumber_digits (tie : Tie) {x : Binary64} (hx : x.isZero = false) :
    0 < (ofNumber tie x).digits ∨ ofNumber tie x = ⟨0, 0⟩ := by
  have hmagnitude : x.magnitude ≠ 0 := by simpa [Binary64.isZero] using hx
  exact search_digits (low_basin hmagnitude) _ 0 18

end Shortest

/-! ## Layouts -/

namespace NumberStyle

open Json

variable {n : Nat} {place : Int}

theorem isDigit_zeros (k : Int) : ∀ d ∈ (zeros k).map ascii, isDigit d = true := by
  intro d hd
  rw [zeros, List.map_replicate] at hd
  rw [List.eq_of_mem_replicate hd]
  decide

/-- Digits and zeros with a point among them.  Zero itself has its point after the first place. -/
theorem isUnsigned_positional (h : 0 < n ∨ n = 0 ∧ place = 1) :
    IsUnsigned ((stored.positionalDigits (Nat.toDigits 10 n) place).map ascii) := by
  have hdigits := isDigits_digits n
  have hlength : (digits n).length = (Nat.toDigits 10 n).length := List.length_map ..
  have hzero : (digits n).head? = some (ascii '0') → n = 0 ∧ place = 1 := by
    intro hhead
    have hn := eq_zero_of_head hhead
    omega
  unfold positionalDigits
  split
  · -- zeros between the point and the digits
    have hfraction : IsDigits ((zeros (-place)).map ascii ++ digits n) := by
      refine ⟨by simp [digits_ne_nil], ?_⟩
      intro d hd
      rcases List.mem_append.mp hd with hd | hd
      · exact isDigit_zeros _ d hd
      · exact hdigits.2 d hd
    exact ⟨[ascii '0'], ascii '.' :: ((zeros (-place)).map ascii ++ digits n), [], by simp [digits],
      isWhole_digits 0, .inr ⟨_, hfraction, rfl⟩, .inl rfl⟩
  · split
    · -- zeros between the digits and the point
      have hwhole : IsWhole (digits n ++ (zeros (place - (Nat.toDigits 10 n).length)).map ascii) := by
        refine ⟨⟨by simp [digits_ne_nil], ?_⟩, ?_⟩
        · intro d hd
          rcases List.mem_append.mp hd with hd | hd
          · exact hdigits.2 d hd
          · exact isDigit_zeros _ d hd
        · intro hhead
          rw [List.head?_append_of_ne_nil _ (digits_ne_nil n)] at hhead
          obtain ⟨rfl, rfl⟩ := hzero hhead
          rfl
      exact ⟨_, ascii '.' :: [ascii '0'], [], by simp [digits, stored], hwhole,
        .inr ⟨_, (isWhole_digits 0).1, rfl⟩, .inl rfl⟩
    · -- the point among the digits
      have hplace : place.toNat ≠ 0 := by omega
      have hless : place.toNat < (digits n).length := by omega
      have hwhole : IsWhole ((digits n).take place.toNat) := by
        refine ⟨⟨?_, fun d hd => hdigits.2 d (List.mem_of_mem_take hd)⟩, ?_⟩
        · rw [ne_eq, List.take_eq_nil_iff, not_or]
          exact ⟨hplace, digits_ne_nil n⟩
        · intro hhead
          rw [List.head?_take, if_neg hplace] at hhead
          obtain ⟨rfl, rfl⟩ := hzero hhead
          exact absurd hless (by decide)
      have hfraction : IsDigits ((digits n).drop place.toNat) := by
        refine ⟨?_, fun d hd => hdigits.2 d (List.mem_of_mem_drop hd)⟩
        rw [ne_eq, List.drop_eq_nil_iff]
        omega
      exact ⟨_, ascii '.' :: (digits n).drop place.toNat, [], by simp [digits, List.map_take, List.map_drop],
        hwhole, .inr ⟨_, hfraction, rfl⟩, .inl rfl⟩

theorem isWhole_singleton {d : UInt8} (hd : isDigit d = true) : IsWhole [d] := by
  refine ⟨⟨List.cons_ne_nil d [], by simpa using hd⟩, ?_⟩
  intro hhead
  rw [Option.some.inj hhead]

/-- One digit, the others after a point, and an exponent. -/
theorem isUnsigned_exponent (n : Nat) (place : Int) :
    IsUnsigned ((exponentDigits (Nat.toDigits 10 n) place).map ascii) := by
  have hexponent : IsExponent (('e' :: exponentText (place - 1)).map ascii) := by
    refine .inr ⟨ascii (if place - 1 < 0 then '-' else '+'), digits (place - 1).natAbs, ?_,
      isDigits_digits _, rfl⟩
    split
    · exact .inr rfl
    · exact .inl rfl
  have hdigits : ∀ c ∈ Nat.toDigits 10 n, isDigit (ascii c) = true := fun c hc =>
    isDigit_ascii (Nat.isDigit_of_mem_toDigits (by decide) (by decide) hc)
  unfold exponentDigits
  dsimp only
  split
  · rename_i hnone
    exact absurd hnone Nat.toDigits_ne_nil
  · rename_i d hone
    rw [hone] at hdigits
    exact ⟨[ascii d], [], _, by simp, isWhole_singleton (hdigits d List.mem_cons_self), .inl rfl, hexponent⟩
  · rename_i d rest hrest hmore
    rw [hmore] at hdigits
    have hfraction : IsDigits (rest.map ascii) := by
      refine ⟨by simpa using hrest, ?_⟩
      intro b hb
      obtain ⟨c, hc, rfl⟩ := List.mem_map.mp hb
      exact hdigits c (List.mem_cons_of_mem d hc)
    exact ⟨[ascii d], ascii '.' :: rest.map ascii, _, by simp, isWhole_singleton (hdigits d List.mem_cons_self),
      .inr ⟨_, hfraction, rfl⟩, hexponent⟩

theorem isUnsigned_layOut {d : ShortDecimal} (h : 0 < d.digits ∨ d = ⟨0, 0⟩) :
    IsUnsigned ((stored.layOut d).map ascii) := by
  have hplace : 0 < d.digits ∨ d.digits = 0 ∧ ((Nat.toDigits 10 d.digits).length : Int) + d.exponent = 1 := by
    rcases h with h | rfl
    · exact .inl h
    · exact .inr ⟨rfl, by decide⟩
  unfold layOut
  dsimp only [stored]
  split
  · exact isUnsigned_positional hplace
  · exact isUnsigned_exponent _ _

theorem isUnsigned_unsignedText {x : Binary64} (hx : x.isFinite = true) :
    IsUnsigned ((stored.unsignedText x).map ascii) := by
  have hmagnitude : x.magnitude < Binary64.infinityBits := by simpa [Binary64.isFinite] using hx
  have hnumber : x.isNaN = false := decide_eq_false (by omega)
  have hinfinite : x.isInfinite = false := beq_false_of_ne (by omega)
  unfold unsignedText
  rw [hnumber, hinfinite]
  simp only [Bool.false_eq_true, if_false]
  split
  · exact ⟨[ascii '0'], ascii '.' :: [ascii '0'], [], by decide +kernel, isWhole_digits 0,
      .inr ⟨_, (isWhole_digits 0).1, rfl⟩, .inl rfl⟩
  · rename_i hzero
    exact isUnsigned_layOut (Shortest.ofNumber_digits _ (by simpa using hzero))

/-- The stored text of a finite number is spelled as a number is. -/
theorem isNumber_text {x : Binary64} (hx : x.isFinite = true) : IsNumber (asciiBytes (stored.text x)) := by
  rw [text, asciiBytes, String.toList_ofList]
  split
  · exact .inr ⟨_, isUnsigned_unsignedText hx, List.map_cons ..⟩
  · exact .inl (isUnsigned_unsignedText hx)

end NumberStyle

end RowGraph
