import Mathlib.Algebra.Group.Nat.Defs
import RowGraph.Storage.Retry

/-!
# Rounding from below

A number is rounded to the nearest one of 53 significant bits, so that it does not sink below a power of
two that it has reached (`le_units_nearest`); sums and products inherit this (`le_units_add`,
`le_units_mul`).  A jitter below one leaves a share of every wait that is not too small
(`units_of_jitterInRange`), and a long span times such a share is still some time (`one_le_scaled`).
-/

namespace RowGraph

namespace Binary64

variable {x y : Binary64} {num den e k m : Nat}

theorem exists_unitsPerOne : ∃ u, u = 1074 ∧ unitsPerOne = 2 ^ u := ⟨1074, rfl, by decide +kernel⟩

theorem unitsPerOne_pos : 0 < unitsPerOne := by decide +kernel

theorem magnitude_ofMagnitude (negative : Bool) (hm : m ≤ infinityBits) :
    (ofMagnitude negative m).magnitude = m := by
  have hsign : infinityBits < signBit := by decide
  have hsize : signBit + signBit = 2 ^ 64 := by decide
  unfold magnitude ofMagnitude
  cases negative with
  | false =>
    rw [if_neg (by simp), UInt64.toNat_ofNat', Nat.mod_eq_of_lt (a := m) (by omega)]
    exact Nat.mod_eq_of_lt (by omega)
  | true =>
    rw [if_pos rfl, UInt64.toNat_ofNat', Nat.mod_eq_of_lt (a := signBit + m) (by omega),
      Nat.add_mod_left]
    exact Nat.mod_eq_of_lt (by omega)

/-- Magnitude bits with the exponent field `e + 1` or a larger one. -/
theorem le_units_of_magnitude (h : (e + 1) * fractionBound ≤ x.magnitude) : 2 ^ (52 + e) ≤ x.units := by
  have hfield : e + 1 ≤ x.magnitude / fractionBound := (Nat.le_div_iff_mul_le (by decide)).mpr h
  have hscale : e ≤ scale x.magnitude := by
    unfold scale
    omega
  have hsignificand : 2 ^ 52 ≤ significand x.magnitude := by
    unfold significand
    rw [if_neg (by omega)]
    exact Nat.le_add_right fractionBound _
  unfold units
  rw [Nat.pow_add]
  exact Nat.mul_le_mul hsignificand (Nat.pow_le_pow_right (by decide) hscale)

theorem le_units_infinity (hm : 52 ≤ m) (hm' : m ≤ 2098) :
    2 ^ m ≤ (ofMagnitude false infinityBits).units := by
  obtain ⟨e, rfl⟩ := Nat.exists_eq_add_of_le hm
  refine le_units_of_magnitude ?_
  rw [magnitude_ofMagnitude _ (Nat.le_refl _)]
  exact Nat.mul_le_mul_right _ (by omega)

theorem le_roundHalfEven (num den : Nat) : num / den ≤ roundHalfEven num den := by
  unfold roundHalfEven
  dsimp only
  split
  · exact Nat.le_refl _
  · split
    · exact Nat.le_add_right ..
    · exact Nat.le_add_right ..

theorem le_roundHalfEven_of_mul_le (hden : 0 < den) (h : k * den ≤ num) : k ≤ roundHalfEven num den :=
  Nat.le_trans ((Nat.le_div_iff_mul_le hden).mpr h) (le_roundHalfEven num den)

/-- The nearest number is not below a power of two that the quotient has reached. -/
theorem le_units_nearest (negative : Bool) (hm : 52 ≤ m) (hm' : m ≤ 2098) (hden : 0 < den)
    (h : 2 ^ m * den ≤ num * unitsPerOne) : 2 ^ m ≤ (nearest negative num den).units := by
  have hquotient : 2 ^ m ≤ num * unitsPerOne / den := (Nat.le_div_iff_mul_le hden).mpr h
  have hpos : num * unitsPerOne / den ≠ 0 :=
    Nat.ne_of_gt (Nat.lt_of_lt_of_le (Nat.two_pow_pos m) hquotient)
  have hlog : m ≤ (num * unitsPerOne / den).log2 := (Nat.le_log2 hpos).mpr hquotient
  obtain ⟨e, rfl⟩ := Nat.exists_eq_add_of_le hm
  obtain ⟨k, hk⟩ := Nat.exists_eq_add_of_le (Nat.le_trans hm hlog)
  -- At the scale of its leading bit the quotient has all 53 bits.
  have hleading : fractionBound ≤ num * unitsPerOne / (den * Nat.pow 2 k) := by
    have hself := Nat.log2_self_le hpos
    rw [hk, Nat.pow_add] at hself
    rw [← Nat.div_div_eq_div_mul]
    exact (Nat.le_div_iff_mul_le (Nat.two_pow_pos k)).mpr hself
  have hscale : (num * unitsPerOne / den).log2 - 52 = k := by omega
  refine le_units_of_magnitude ?_
  unfold nearest nearestBits
  rw [magnitude_ofMagnitude _ (Nat.min_le_right ..), hscale]
  refine Nat.le_min.mpr ⟨?_, Nat.mul_le_mul_right _ (by omega)⟩
  calc (e + 1) * fractionBound ≤ (k + 1) * fractionBound := Nat.mul_le_mul_right _ (by omega)
    _ = k * fractionBound + fractionBound := Nat.succ_mul ..
    _ ≤ k * fractionBound + roundHalfEven (num * unitsPerOne) (den * Nat.pow 2 k) :=
      Nat.add_le_add_left (Nat.le_trans hleading (le_roundHalfEven ..)) _

theorem le_units_add (hm : 52 ≤ m) (hm' : m ≤ 2098) (h : 2 ^ m ≤ x.units) : 2 ^ m ≤ (x.add y).units := by
  unfold add
  split
  · refine le_units_nearest _ hm hm' unitsPerOne_pos ?_
    exact Nat.mul_le_mul_right _ (Nat.le_trans h (Nat.le_add_right ..))
  · exact le_units_infinity hm hm'

theorem le_units_mul (hm : 52 ≤ m) (hm' : m ≤ 2098) (h : 2 ^ m * unitsPerOne ≤ x.units * y.units) :
    2 ^ m ≤ (x.mul y).units := by
  unfold mul
  split
  · refine le_units_nearest _ hm hm' (Nat.mul_pos unitsPerOne_pos unitsPerOne_pos) ?_
    rw [← Nat.mul_assoc]
    exact Nat.mul_le_mul_right _ h
  · exact le_units_infinity hm hm'

/-! ## A jitter below one -/

theorem magnitude_of_jitterInRange (h : Settings.jitterInRange x = true) :
    x.magnitude < 1023 * fractionBound := by
  have hone : (ofNat 1).level = 1023 * fractionBound := by decide +kernel
  have hzero : (ofNat 0).level = 0 := by decide +kernel
  unfold Settings.jitterInRange compareValues? at h
  rw [hone, hzero] at h
  split at h
  · rename_i a b ha hb
    split at ha
    · cases ha
    split at hb
    · cases hb
    obtain rfl := Option.some.inj ha
    obtain rfl := Option.some.inj hb
    rw [Bool.and_eq_true, Int.isLE_compare, beq_iff_eq, Int.compare_eq_lt] at h
    unfold level at h
    split at h
    · simp only [fractionBound]
      omega
    · omega
  · cases h

/-- A jitter below one is below it by a unit of the last place, or more. -/
theorem units_of_jitterInRange (hk : k ≤ 1021) (h : Settings.jitterInRange x = true) :
    x.units + 2 ^ k ≤ unitsPerOne := by
  obtain ⟨u, hu, hone⟩ := exists_unitsPerOne
  have hfield : x.magnitude / fractionBound < 1023 :=
    (Nat.div_lt_iff_lt_mul (by decide)).mpr (magnitude_of_jitterInRange h)
  have hscale : scale x.magnitude ≤ u - 53 := by
    unfold scale
    omega
  have hsignificand : significand x.magnitude + 1 ≤ 2 ^ 53 := by
    have hfraction := Nat.mod_lt x.magnitude (show 0 < fractionBound by decide)
    unfold significand
    split <;> simp only [fractionBound] at hfraction ⊢ <;> omega
  calc x.units + 2 ^ k ≤ significand x.magnitude * 2 ^ (u - 53) + 2 ^ (u - 53) :=
        Nat.add_le_add (Nat.mul_le_mul_left _ (Nat.pow_le_pow_right (by decide) hscale))
          (Nat.pow_le_pow_right (by decide) (by omega))
    _ = (significand x.magnitude + 1) * 2 ^ (u - 53) := (Nat.succ_mul ..).symm
    _ ≤ 2 ^ 53 * 2 ^ (u - 53) := Nat.mul_le_mul_right _ hsignificand
    _ = 2 ^ u := by rw [← Nat.pow_add, Nat.add_sub_of_le (by omega)]
    _ = unitsPerOne := hone.symm

end Binary64

namespace Nanos

open Binary64

variable {d : Nanos} {factor : Binary64} {k : Nat}

theorem le_units_toSeconds (hd : 2 ^ 93 ≤ d) : 2 ^ 63 * unitsPerOne ≤ d.toSeconds.units := by
  obtain ⟨u, hu, hone⟩ := exists_unitsPerOne
  have hseconds : 2 ^ 63 ≤ d / perSecond :=
    (Nat.le_div_iff_mul_le (by decide)).mpr (Nat.le_trans (by decide) hd)
  rw [hone, ← Nat.pow_add]
  refine le_units_add (by omega) (by omega) (le_units_nearest _ (by omega) (by omega) (by decide) ?_)
  rw [Nat.mul_one, hone, Nat.pow_add]
  exact Nat.mul_le_mul_right _ hseconds

/-- A long span is still some time when it is multiplied by a factor that is not too small. -/
theorem one_le_scaled (hd : 2 ^ 93 ≤ d) (hk : 1021 ≤ k) (hfactor : 2 ^ k ≤ factor.units) :
    1 ≤ d.scaled factor := by
  obtain ⟨u, hu, hone⟩ := exists_unitsPerOne
  have hproduct : unitsPerOne ≤ (factor.mul d.toSeconds).units := by
    rw [hone]
    refine le_units_mul (by omega) (by omega) ?_
    calc 2 ^ u * unitsPerOne ≤ 2 ^ (k + 63) * unitsPerOne :=
          Nat.mul_le_mul_right _ (Nat.pow_le_pow_right (by decide) (by omega))
      _ = 2 ^ k * (2 ^ 63 * unitsPerOne) := by rw [Nat.pow_add, Nat.mul_assoc]
      _ ≤ factor.units * d.toSeconds.units := Nat.mul_le_mul hfactor (le_units_toSeconds hd)
  unfold scaled ofSeconds
  refine le_roundHalfEven_of_mul_le unitsPerOne_pos ?_
  rw [Nat.one_mul]
  exact Nat.le_trans hproduct (Nat.le_mul_of_pos_right _ (by decide))

end Nanos

end RowGraph
