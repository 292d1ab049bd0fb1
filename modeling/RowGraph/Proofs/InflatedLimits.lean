import Mathlib.Data.List.Basic
import RowGraph.Plan.CheckedLimit

/-!
# Inflated limits

In words of 64 bits the limit of a read never meets a fault: the divisor is a limit of at least one, fewer
than 32 places are moved, and what could exceed a word stays at the greatest one.  So the words hold what
`forRead` says of numbers (`checkedForRead_eq`).

The limit lies between what was asked for and the greatest limit of a read, and does not fall where more is
left to check or may be read (`forRead_bounded`).
-/

namespace RowGraph

namespace Word

variable {a b places : UInt64}

theorem toNat_greatest : greatest.toNat = bound64 - 1 := by decide

theorem shiftLeft_eq_ok (h : places.toNat < 64) : shiftLeft a places = .ok (a <<< places) :=
  if_pos (UInt64.lt_iff_toNat_lt.mpr h)

theorem divide_eq_ok (h : b ≠ 0) : divide a b = .ok (a / b) := if_neg h

/-- One moved by fewer than 64 places is a power of two. -/
theorem toNat_one_shiftLeft (h : places.toNat < 64) : ((1 : UInt64) <<< places).toNat = Nat.pow 2 places.toNat := by
  have hpow : 2 ^ places.toNat < 2 ^ 64 := Nat.pow_lt_pow_right (by decide) h
  rw [UInt64.toNat_shiftLeft, Nat.mod_eq_of_lt h, Nat.shiftLeft_eq, UInt64.toNat_one, Nat.one_mul,
    Nat.mod_eq_of_lt hpow]
  rfl

theorem toNat_saturatingMul (a b : UInt64) : (saturatingMul a b).toNat = ReadLimit.times a.toNat b.toNat := by
  unfold saturatingMul ReadLimit.times ReadLimit.most
  by_cases h : a.toNat * b.toNat < bound64
  · have hmod : a.toNat * b.toNat % 2 ^ 64 = a.toNat * b.toNat := Nat.mod_eq_of_lt h
    rw [if_pos h, UInt64.toNat_mul, hmod]
    omega
  · rw [if_neg h, toNat_greatest]
    omega

theorem toNat_saturatingAdd (a b : UInt64) : (saturatingAdd a b).toNat = ReadLimit.plus a.toNat b.toNat := by
  unfold saturatingAdd ReadLimit.plus ReadLimit.most
  by_cases h : a.toNat + b.toNat < bound64
  · have hmod : (a.toNat + b.toNat) % 2 ^ 64 = a.toNat + b.toNat := Nat.mod_eq_of_lt h
    rw [if_pos h, UInt64.toNat_add, hmod]
    omega
  · rw [if_neg h, toNat_greatest]
    omega

end Word

namespace ReadLimit

/-! ## In words -/

theorem checkedFactor_eq (remaining : UInt64) :
    ∃ w, checkedFactor remaining = .ok w ∧ w.toNat = factor remaining.toNat := by
  unfold checkedFactor factor
  by_cases h : 31 ≤ remaining
  · have hnat : 31 ≤ remaining.toNat := UInt64.le_iff_toNat_le.mp h
    rw [if_pos h, Word.shiftLeft_eq_ok (by decide), Nat.min_eq_right hnat]
    exact ⟨_, rfl, Word.toNat_one_shiftLeft (by decide)⟩
  · have hnat : remaining.toNat < 31 := UInt64.lt_iff_toNat_lt.mp (UInt64.not_le.mp h)
    rw [if_neg h, Word.shiftLeft_eq_ok (by omega), Nat.min_eq_left (by omega)]
    exact ⟨_, rfl, Word.toNat_one_shiftLeft (by omega)⟩

theorem checkedInflated_eq (modified : Bool) (remaining limit : UInt64) :
    ∃ w, checkedInflated modified remaining limit = .ok w ∧
      w.toNat = inflated modified remaining.toNat limit.toNat := by
  have hpos : max limit 1 ≠ 0 := by
    intro h
    have hnat := congrArg UInt64.toNat h
    rw [UInt64.toNat_max, UInt64.toNat_one, UInt64.toNat_zero] at hnat
    omega
  have hceiling : (UInt64.ofNat ceiling).toNat = ceiling := by decide
  obtain ⟨f, hf, hfactor⟩ := checkedFactor_eq remaining
  unfold checkedInflated inflated
  dsimp only
  rw [hf, Word.divide_eq_ok hpos]
  refine ⟨_, rfl, ?_⟩
  cases modified <;>
    simp only [Bool.false_eq_true, if_false, if_true, Word.toNat_saturatingAdd, Word.toNat_saturatingMul,
      UInt64.toNat_max, UInt64.toNat_min, UInt64.toNat_div, UInt64.toNat_one, UInt64.reduceToNat, hceiling, hfactor]

/-- In words there is no fault, and the words stand for the numbers. -/
theorem checkedForRead_eq (remaining : UInt64) (base : Option UInt64) (hardMax : UInt64) (modified : Bool) :
    ∃ limit, checkedForRead remaining base hardMax modified = .ok limit ∧
      limit.map UInt64.toNat =
        forRead remaining.toNat (base.map UInt64.toNat) hardMax.toNat modified := by
  cases base with
  | none => exact ⟨none, rfl, rfl⟩
  | some b =>
    obtain ⟨w, hw, hinflated⟩ := checkedInflated_eq modified remaining b
    unfold checkedForRead
    dsimp only
    rw [hw]
    refine ⟨_, rfl, ?_⟩
    simp only [Option.map_some, forRead, UInt64.toNat_max, UInt64.toNat_min, hinflated]

/-! ## How limits grow -/

variable {remaining remaining' limit hardMax hardMax' b : Nat} {modified modified' : Bool}

theorem times_mono {a b b' : Nat} (h : b ≤ b') : times a b ≤ times a b' := by
  have hmul : a * b ≤ a * b' := Nat.mul_le_mul_left a h
  unfold times
  omega

theorem factor_mono (h : remaining ≤ remaining') : factor remaining ≤ factor remaining' :=
  Nat.pow_le_pow_right (by decide) (by omega)

/-- A limit multiplied for the conditions that are left to check. -/
def scaled (remaining limit : Nat) : Nat :=
  times (max limit 1) (max (min (factor remaining) (ceiling / max limit 1)) 1)

theorem inflated_eq (modified : Bool) (remaining limit : Nat) :
    inflated modified remaining limit =
      if modified then plus (scaled remaining limit) 5 else scaled remaining limit := rfl

theorem scaled_le_most (remaining limit : Nat) : scaled remaining limit ≤ most := Nat.min_le_right ..

theorem scaled_mono (h : remaining ≤ remaining') : scaled remaining limit ≤ scaled remaining' limit := by
  have hfactor : factor remaining ≤ factor remaining' := factor_mono h
  exact times_mono (by omega)

/-- More conditions that are left to check, or changes of the graph, do not make a limit smaller. -/
theorem inflated_mono (hr : remaining ≤ remaining') (hm : modified = true → modified' = true) :
    inflated modified remaining limit ≤ inflated modified' remaining' limit := by
  have hscaled : scaled remaining limit ≤ scaled remaining' limit := scaled_mono hr
  have hmost : scaled remaining limit ≤ most := scaled_le_most remaining limit
  rw [inflated_eq, inflated_eq]
  unfold plus
  cases modified with
  | true =>
    rw [hm rfl]
    simp only [if_true]
    omega
  | false =>
    cases modified' with
    | true =>
      simp only [Bool.false_eq_true, if_false, if_true]
      omega
    | false => exact hscaled

/-- The limit of a read with the limit `b`. -/
def readLimit (remaining b hardMax : Nat) (modified : Bool) : Nat :=
  max b (min hardMax (inflated modified remaining b))

theorem forRead_some (remaining b hardMax : Nat) (modified : Bool) :
    forRead remaining (some b) hardMax modified = some (readLimit remaining b hardMax modified) := rfl

theorem forRead_eq_none {base : Option Nat} : forRead remaining base hardMax modified = none ↔ base = none :=
  Option.map_eq_none_iff

theorem le_readLimit (remaining b hardMax : Nat) (modified : Bool) : b ≤ readLimit remaining b hardMax modified :=
  Nat.le_max_left ..

theorem readLimit_le (remaining b hardMax : Nat) (modified : Bool) :
    readLimit remaining b hardMax modified ≤ max b hardMax := by
  unfold readLimit
  omega

theorem readLimit_mono (hr : remaining ≤ remaining') (hh : hardMax ≤ hardMax')
    (hm : modified = true → modified' = true) :
    readLimit remaining b hardMax modified ≤ readLimit remaining' b hardMax' modified' := by
  have hinflated : inflated modified remaining b ≤ inflated modified' remaining' b := inflated_mono hr hm
  unfold readLimit
  omega

/-- Whatever the numbers of 64 bits, the limit of a read is computed in words without a fault and is the one
of `forRead`.  It is there just if one was asked for; it is not below what was asked for, nor above both this
and the greatest limit; and more conditions that are left to check, a higher greatest limit, or changes of the
graph do not make it smaller. -/
theorem forRead_bounded (remaining hardMax : UInt64) (base : Option UInt64) (modified : Bool) :
    ∃ limit, checkedForRead remaining base hardMax modified = .ok limit ∧
      limit.map UInt64.toNat = forRead remaining.toNat (base.map UInt64.toNat) hardMax.toNat modified ∧
      (limit = none ↔ base = none) ∧
      ∀ b l, base = some b → limit = some l →
        b ≤ l ∧ l ≤ max b hardMax ∧
          ∀ remaining' hardMax' modified', remaining ≤ remaining' → hardMax ≤ hardMax' →
            (modified = true → modified' = true) →
            ∃ l', checkedForRead remaining' base hardMax' modified' = .ok (some l') ∧ l ≤ l' := by
  obtain ⟨limit, hlimit, hmap⟩ := checkedForRead_eq remaining base hardMax modified
  refine ⟨limit, hlimit, hmap, ?_, ?_⟩
  · rw [← Option.map_eq_none_iff, hmap, forRead_eq_none, Option.map_eq_none_iff]
  · rintro b l rfl rfl
    rw [Option.map_some, Option.map_some, forRead_some] at hmap
    have hl : l.toNat = readLimit remaining.toNat b.toNat hardMax.toNat modified := Option.some.inj hmap
    refine ⟨?_, ?_, fun remaining' hardMax' modified' hr hh hm => ?_⟩
    · rw [UInt64.le_iff_toNat_le, hl]
      exact le_readLimit ..
    · rw [UInt64.le_iff_toNat_le, hl, UInt64.toNat_max]
      exact readLimit_le ..
    · obtain ⟨limit', hlimit', hmap'⟩ := checkedForRead_eq remaining' (some b) hardMax' modified'
      rw [Option.map_some, forRead_some] at hmap'
      obtain ⟨l', rfl, hl'⟩ := Option.map_eq_some_iff.mp hmap'
      refine ⟨l', hlimit', ?_⟩
      rw [UInt64.le_iff_toNat_le, hl, hl']
      exact readLimit_mono (UInt64.le_iff_toNat_le.mp hr) (UInt64.le_iff_toNat_le.mp hh) hm

example : forRead 2 (some 10) 300000 true = some 45 := by decide

end ReadLimit

end RowGraph
