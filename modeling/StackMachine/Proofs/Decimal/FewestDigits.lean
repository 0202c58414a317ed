import Mathlib.Tactic.NormNum
import StackMachine.Proofs.Decimal.Coarsest

/-! # The fewest digits

The best decimal of the coarsest grid is compared with every decimal that rounds to the same
ordinal. Others lie on the same grid or on a finer one; where one on a finer grid has no more
digits, it is so much smaller that a power of ten fits in between, which can only be the single
digit one on the coarsest grid. That it is nearer all the same is the one place where the exact
units matter: a power of ten is never much larger than the magnitude it rounds to.

* **`Decimal.nineteen_mul_pow_le`** — a power of ten is at most a nineteenth larger than what it
  rounds to.
* **`Decimal.IsCoarsest.pow_le_digits`** — no decimal that rounds to the ordinal has fewer digits.
* **`Decimal.IsCoarsest.closest`** — none with as many digits is nearer to the exact value.
* **`Decimal.IsCoarsest.exponent_nonneg_iff`** — the decimal is a natural number exactly if the
  magnitude is one. -/

namespace StackMachine

open Binary64

namespace Decimal

/-! ## Powers of ten -/

/-- A number from its units: one unit of the last place is at most a part in `2 ^ 52` of it, or it
has no bits to drop. -/
theorem shiftOf_eq_zero_or (ordinal : Nat) :
    shiftOf ordinal = 0 ∨ leadingWeight * 2 ^ shiftOf ordinal ≤ units ordinal := by
  obtain ⟨significand, hordinal, hnormal, hlt⟩ := exists_significand ordinal
  refine hnormal.imp_right fun hle => ?_
  generalize shiftOf ordinal = shift at *
  rw [hordinal, units_shift (Or.inr hle) (Nat.le_of_lt hlt)]
  exact Nat.mul_le_mul_right _ hle

/-- The units of one are between two and twenty-one tenths of a power of ten, so a power of ten is
at most `0.21` units, or between `2` and `2.1`, or at least `20`. -/
theorem pow_mul_unitsPerOne_cases {scale : Nat} (hlow : 2 * 10 ^ scale ≤ unitsPerOne)
    (hhigh : 10 * unitsPerOne ≤ 21 * 10 ^ scale) (exponent : Int) :
    100 * ((10 : ℚ) ^ exponent * unitsPerOne) ≤ 21 ∨
    (2 ≤ (10 : ℚ) ^ exponent * unitsPerOne ∧ 10 * ((10 : ℚ) ^ exponent * unitsPerOne) ≤ 21) ∨
    20 ≤ (10 : ℚ) ^ exponent * unitsPerOne := by
  have hlow' : 2 * 10 ^ scale ≤ (unitsPerOne : ℚ) := by exact_mod_cast hlow
  have hhigh' : 10 * (unitsPerOne : ℚ) ≤ 21 * 10 ^ scale := by exact_mod_cast hhigh
  have hscale : (0 : ℚ) < 10 ^ scale := by positivity
  obtain ⟨ratio, hratio⟩ : ∃ ratio, (unitsPerOne : ℚ) = ratio * 10 ^ scale :=
    ⟨unitsPerOne / 10 ^ scale, by field_simp⟩
  have hmin : 2 ≤ ratio := by
    rw [hratio] at hlow'
    exact le_of_mul_le_mul_right hlow' hscale
  have hmax : 10 * ratio ≤ 21 := by
    rw [hratio, ← mul_assoc] at hhigh'
    exact le_of_mul_le_mul_right hhigh' hscale
  have hpower : (10 : ℚ) ^ exponent * unitsPerOne = ratio * 10 ^ (exponent + scale) := by
    rw [hratio, zpow_add₀ (by norm_num), zpow_natCast]
    ring
  rw [hpower]
  obtain hsmall | hzero | hlarge : exponent + scale ≤ -1 ∨ exponent + scale = 0 ∨
      1 ≤ exponent + scale := by omega
  · have hpow : (10 : ℚ) ^ (exponent + scale) ≤ 10 ^ (-1 : ℤ) :=
      zpow_le_zpow_right₀ (by norm_num) hsmall
    rw [zpow_neg_one] at hpow
    exact Or.inl (by nlinarith)
  · rw [hzero, zpow_zero, mul_one]
    exact Or.inr (Or.inl ⟨hmin, hmax⟩)
  · have hpow : (10 : ℚ) ^ (1 : ℤ) ≤ 10 ^ (exponent + scale) :=
      zpow_le_zpow_right₀ (by norm_num) hlarge
    rw [zpow_one] at hpow
    exact Or.inr (Or.inr (by nlinarith))

/-- **A power of ten that rounds to a number is at most a nineteenth larger.** Only the least
subnormal numbers have steps that are large enough for more, and `2.02` units is the only power of
ten among them. -/
theorem nineteen_mul_pow_le {ordinal : Nat} {exponent : Int} (hpos : 0 < ordinal)
    (hfinite : ordinal < infinityOrdinal) (h : (Decimal.mk 1 exponent).ordinal = ordinal) :
    19 * (10 : ℚ) ^ exponent ≤ 20 * magnitude ordinal := by
  by_contra hlt
  have hunit := unitsPerOne_pos
  have hcases := @pow_mul_unitsPerOne_cases 323 (by decide +kernel) (by decide +kernel) exponent
  have hbelow : 20 * (units ordinal : ℚ) < 19 * (10 ^ exponent * unitsPerOne) := by
    rw [not_le, magnitude, ← mul_div_assoc, div_lt_iff₀ hunit] at hlt
    linarith
  have hupper : 2 * (10 ^ exponent * unitsPerOne)
      ≤ 2 * (units ordinal : ℚ) + 2 ^ shiftOf ordinal := by
    have hnearest := ordinal_eq_iff.mp h
    rw [value_one] at hnearest
    exact hnearest.units_upper hfinite
  generalize (10 : ℚ) ^ exponent * unitsPerOne = power at *
  -- a number with dropped bits has so many units
  -- that half a unit of its last place is too small a part of it
  have hshift : shiftOf ordinal = 0 := by
    refine (shiftOf_eq_zero_or ordinal).resolve_right fun hle => ?_
    have hle' : (4503599627370496 : ℚ) * 2 ^ shiftOf ordinal ≤ units ordinal := by
      exact_mod_cast hle
    have hstep : (0 : ℚ) < 2 ^ shiftOf ordinal := by positivity
    linarith
  have hone : (1 : ℚ) ≤ units ordinal := by exact_mod_cast units_pos hpos
  rw [hshift, pow_zero] at hupper
  obtain hsmall | ⟨hmin, hmax⟩ | hlarge := hcases
  · linarith
  · -- one unit is too far below `2.02`, and with two or more the power is not that much larger
    have htwo : (2 : ℚ) ≤ units ordinal := by
      have hgt : (1 : ℚ) < units ordinal := by linarith
      exact_mod_cast hgt
    linarith
  · linarith

/-! ## Competitors -/

/-- A bound on the digits is one on the value. -/
theorem value_lt_pow {d : Decimal} {count : Nat} (h : d.digits < 10 ^ count) :
    d.value < 10 ^ ((count : Int) + d.exponent) := by
  rw [value, zpow_add₀ (by norm_num), zpow_natCast]
  exact mul_lt_mul_of_pos_right (by exact_mod_cast h) (by positivity)

/-- A bound from below on the digits is one on the value. -/
theorem pow_le_value {d : Decimal} {count : Nat} (h : 10 ^ count ≤ d.digits) :
    10 ^ ((count : Int) + d.exponent) ≤ d.value := by
  rw [value, zpow_add₀ (by norm_num), zpow_natCast]
  exact mul_le_mul_of_nonneg_right (by exact_mod_cast h) (by positivity)

namespace IsCoarsest

variable {ordinal : Nat} {shortest d : Decimal}

/-- No decimal that rounds to the number lies on a coarser grid. -/
theorem exponent_le (hs : IsCoarsest ordinal shortest) (h : d.ordinal = ordinal) :
    d.exponent ≤ shortest.exponent := by
  by_contra hlt
  have hadmits : Admits ordinal d.exponent := ⟨d.digits, h⟩
  exact hs.beyond (hadmits.of_le (by omega))

/-- **The digits do not end in a zero.** -/
theorem digits_mod_ten (hs : IsCoarsest ordinal shortest) : shortest.digits % 10 ≠ 0 := by
  intro hzero
  refine hs.beyond ⟨shortest.digits / 10, ?_⟩
  rw [← ordinal_congr (value_mul_ten _ _), Nat.div_mul_cancel (Nat.dvd_of_mod_eq_zero hzero)]
  exact hs.best.ordinal_eq

/-- A power of ten between another decimal that rounds to the number and this one rounds to it too,
so it lies on no coarser grid. -/
theorem ordinal_pow_between (hs : IsCoarsest ordinal shortest) (h : d.ordinal = ordinal)
    {power : Int} (hlower : d.value ≤ 10 ^ power) (hupper : (10 : ℚ) ^ power ≤ shortest.value) :
    (Decimal.mk 1 power).ordinal = ordinal ∧ power ≤ shortest.exponent := by
  have hordinal : (Decimal.mk 1 power).ordinal = ordinal := by
    refine Nat.le_antisymm ?_ ?_
    · rw [← hs.best.ordinal_eq]
      exact ordinal_mono ((value_one power).trans_le hupper)
    · rw [← h]
      exact ordinal_mono (hlower.trans_eq (value_one power).symm)
  exact ⟨hordinal, hs.exponent_le hordinal⟩

/-- **No decimal that rounds to the number has fewer digits.** -/
theorem pow_le_digits (hs : IsCoarsest ordinal shortest) (hpos : 0 < ordinal)
    (h : d.ordinal = ordinal) {count : Nat} (hcount : 10 ^ count ≤ shortest.digits) :
    10 ^ count ≤ d.digits := by
  by_contra hlt
  have hexponent := hs.exponent_le h
  have hvalue : d.value ≤ 10 ^ ((count : Int) + shortest.exponent) :=
    (value_lt_pow (Nat.lt_of_not_le hlt)).le.trans (zpow_le_zpow_right₀ (by norm_num) (by omega))
  -- the power of ten in between can only be the step of the grid,
  -- so the decimal has no digit at all
  obtain ⟨-, hpower⟩ := hs.ordinal_pow_between h hvalue (pow_le_value hcount)
  obtain rfl : count = 0 := by omega
  exact hlt (digits_pos (h ▸ hpos))

/-- **No decimal with as many digits that rounds to the number is nearer to its exact value.** On a
finer grid it would be a multiple of a smaller power of ten, and then the coarse grid has a power of
ten in between. -/
theorem closest (hs : IsCoarsest ordinal shortest) (hpos : 0 < ordinal)
    (hfinite : ordinal < infinityOrdinal) (h : d.ordinal = ordinal) {count : Nat}
    (hcount : 10 ^ count ≤ shortest.digits) (hd : d.digits < 10 ^ (count + 1)) :
    |magnitude ordinal - shortest.value| ≤ |magnitude ordinal - d.value| := by
  obtain hexponent | hexponent := (hs.exponent_le h).eq_or_lt
  · obtain ⟨digits, exponent⟩ := d
    obtain rfl : exponent = shortest.exponent := hexponent
    exact hs.best.closest digits h
  · have hvalue : d.value < 10 ^ ((count : Int) + shortest.exponent) :=
      (value_lt_pow hd).trans_le (zpow_le_zpow_right₀ (by norm_num) (by omega))
    obtain ⟨hordinal, hpower⟩ := hs.ordinal_pow_between h hvalue.le (pow_le_value hcount)
    obtain rfl : count = 0 := by omega
    rw [Nat.cast_zero, zero_add] at hvalue hordinal
    -- a single digit on a finer grid is at most nine tenths of the power of ten
    have hnine : 10 * d.value ≤ 9 * 10 ^ shortest.exponent := by
      have hdigits : (d.digits : ℚ) ≤ 9 := by exact_mod_cast Nat.le_of_lt_succ hd
      have hstep : (10 : ℚ) ^ (d.exponent + 1) ≤ 10 ^ shortest.exponent :=
        zpow_le_zpow_right₀ (by norm_num) (by omega)
      rw [zpow_add_one₀ (by norm_num)] at hstep
      calc 10 * d.value = d.digits * (10 ^ d.exponent * 10) := by
            rw [value]
            ring
        _ ≤ 9 * 10 ^ shortest.exponent := mul_le_mul hdigits hstep (by positivity) (by norm_num)
    have hnineteen := nineteen_mul_pow_le hpos hfinite hordinal
    have hpower := hs.best.closest 1 hordinal
    rw [value_one] at hpower
    exact hpower.trans ((abs_sub_le_abs_sub_iff' hvalue).mpr (by linarith))

/-- No other decimal of the same value has digits that do not end in a zero. -/
theorem eq_of_value_eq (hs : IsCoarsest ordinal shortest) (h : d.value = shortest.value)
    (hd : d.digits % 10 ≠ 0) :
    d = shortest := by
  have hexponent := hs.exponent_le ((ordinal_congr h).trans hs.best.ordinal_eq)
  obtain ⟨finer, hfiner⟩ := Int.le.dest hexponent
  have hvalue : (d.digits : ℚ) = shortest.digits * 10 ^ finer := by
    rw [value, value, ← hfiner, zpow_add₀ (by norm_num), zpow_natCast, mul_left_comm, mul_comm] at h
    exact mul_left_cancel₀ (by positivity) h
  have hdigits : d.digits = shortest.digits * 10 ^ finer := by exact_mod_cast hvalue
  cases finer with
  | zero =>
    rw [pow_zero, Nat.mul_one] at hdigits
    obtain ⟨digits, exponent⟩ := d
    obtain ⟨digits', exponent'⟩ := shortest
    simp_all
  | succ finer =>
    rw [pow_succ, ← Nat.mul_assoc] at hdigits
    exact absurd (hdigits ▸ Nat.mul_mod_left _ _) hd

/-- **The shortest decimal of a number has no fraction exactly if the number is an integer.** -/
theorem exponent_nonneg_iff (hs : IsCoarsest ordinal shortest)
    (hfinite : ordinal < infinityOrdinal) :
    0 ≤ shortest.exponent ↔ ∃ n : Nat, magnitude ordinal = n := by
  constructor
  · intro h
    obtain ⟨e, he⟩ := Int.eq_ofNat_of_zero_le h
    have hvalue : shortest.value = ((shortest.digits * 10 ^ e : Nat) : ℚ) := by
      rw [value, he, zpow_natCast]
      push_cast
      rfl
    have hnearest := ordinal_eq_iff.mp hs.best.ordinal_eq
    rw [hvalue] at hnearest
    exact @IsNearest.exists_natCast _ _ 1074 hnearest hfinite (by decide +kernel)
  · rintro ⟨n, hn⟩
    refine @exponent_le _ _ ⟨n, 0⟩ hs (ordinal_eq_iff.mpr ?_)
    rw [value, zpow_zero, mul_one, ← hn]
    exact isNearest_magnitude hfinite.le

end IsCoarsest

end Decimal

end StackMachine
