import Mathlib.Algebra.Order.Field.Power
import Mathlib.Tactic.Positivity
import StackMachine.Proofs.Binary64.Nearest
import StackMachine.Proofs.Decimal.ReadBack

/-! # Decimals round to the nearest number

A decimal is a natural number times a power of ten, so its exact value is a rational number. The
ordinal that is computed for it is specified by that value alone: questions about rounding become
questions about an order of rational numbers.

* **`Decimal.value`** — the exact value of a decimal.
* **`Decimal.isNearest_ordinal`** — the ordinal of a decimal is the nearest one to its value, also
  where the exponent is answered without computing the power.
* **`Decimal.ordinal_eq_iff`** — so a decimal has an ordinal exactly if it is nearest to its
  value. -/

namespace StackMachine

open Binary64

namespace Decimal

/-- The exact **value** of a decimal. -/
def value (d : Decimal) : ℚ := d.digits * 10 ^ d.exponent

/-- Digits times a power of ten. -/
theorem value_ofNat (digits e : Nat) : (Decimal.mk digits (.ofNat e)).value = digits * 10 ^ e := by
  unfold value
  rw [Int.ofNat_eq_natCast, zpow_natCast]

/-- Digits over a power of ten. -/
theorem value_negSucc (digits e : Nat) :
    (Decimal.mk digits (.negSucc e)).value = digits / 10 ^ (e + 1) := by
  unfold value
  rw [zpow_negSucc, div_eq_mul_inv]

/-- The value of a power of ten. -/
theorem value_one (exponent : Int) : (Decimal.mk 1 exponent).value = 10 ^ exponent := by
  rw [value, Nat.cast_one, one_mul]

/-- Zero rounds to zero. -/
theorem isNearest_zero : IsNearest 0 0 :=
  magnitude_zero ▸ isNearest_magnitude (Nat.zero_le _)

/-- A nonzero multiple of a power of ten past the largest finite number rounds to infinity. -/
theorem isNearest_mul_pow {bound digits e : Nat}
    (hbound : units infinityOrdinal ≤ 10 ^ bound * unitsPerOne) (hdigits : digits ≠ 0)
    (he : bound ≤ e) : IsNearest (digits * 10 ^ e) infinityOrdinal := by
  have hpow : 10 ^ bound ≤ digits * 10 ^ e :=
    (Nat.pow_le_pow_right (by decide) he).trans
      (Nat.le_mul_of_pos_left _ (Nat.pos_of_ne_zero hdigits))
  have hunits := hbound.trans (Nat.mul_le_mul_right unitsPerOne hpow)
  refine isNearest_infinity ?_
  rw [magnitude, div_le_iff₀ unitsPerOne_pos]
  exact_mod_cast hunits

/-- Digits over a power of ten so large that the quotient is under half the least magnitude round to
zero. -/
theorem isNearest_div_pow {bits digits e : Nat} (hunit : unitsPerOne = 2 ^ bits)
    (hsmall : digits.log2 + bits + 2 ≤ 3 * e) :
    IsNearest (digits / 10 ^ e) 0 := by
  have hnat : 2 * digits * unitsPerOne ≤ 10 ^ e :=
    calc 2 * digits * unitsPerOne ≤ 2 * 2 ^ (digits.log2 + 1) * 2 ^ bits := by
          rw [hunit]
          exact Nat.mul_le_mul_right _ (Nat.mul_le_mul_left _ Nat.lt_log2_self.le)
      _ = 2 ^ (digits.log2 + bits + 2) := by ring
      _ ≤ 2 ^ (3 * e) := Nat.pow_le_pow_right (by decide) hsmall
      _ = 8 ^ e := pow_mul 2 3 e
      _ ≤ 10 ^ e := Nat.pow_le_pow_left (by decide) e
  rw [isNearest_zero_iff_midpoint, magnitude_one, ← mul_div_assoc,
    div_le_div_iff₀ (by positivity) unitsPerOne_pos, one_mul]
  exact_mod_cast hnat

/-- **The ordinal of a decimal is the nearest one to its value.** -/
theorem isNearest_ordinal (d : Decimal) : IsNearest d.value d.ordinal := by
  obtain ⟨digits, exponent⟩ := d
  cases exponent with
  | ofNat e =>
    rw [ordinal_ofNat, value_ofNat]
    split_ifs with hzero hlarge
    · rw [hzero, Nat.cast_zero, zero_mul]
      exact isNearest_zero
    · exact isNearest_mul_pow (by decide +kernel) hzero hlarge
    · have hnearest := isNearest_nearest (digits * Nat.pow 10 e * unitsPerOne) Nat.one_pos
      rw [Nat.cast_one, div_one, Nat.cast_mul,
        mul_div_cancel_right₀ _ unitsPerOne_pos.ne'] at hnearest
      exact_mod_cast hnearest
  | negSucc e =>
    rw [ordinal_negSucc, value_negSucc]
    split_ifs with hzero hsmall
    · rw [hzero, Nat.cast_zero, zero_div]
      exact isNearest_zero
    · exact isNearest_div_pow (by decide +kernel) hsmall
    · have hnearest :=
        isNearest_nearest (digits * unitsPerOne) (Nat.pow_pos (n := e + 1) (show 0 < 10 by decide))
      rw [div_right_comm, Nat.cast_mul, mul_div_cancel_right₀ _ unitsPerOne_pos.ne'] at hnearest
      exact_mod_cast hnearest

/-- **A decimal rounds to an ordinal exactly if it is nearest to its value.** -/
theorem ordinal_eq_iff {d : Decimal} {ordinal : Nat} :
    d.ordinal = ordinal ↔ IsNearest d.value ordinal :=
  ⟨fun h => h ▸ d.isNearest_ordinal, d.isNearest_ordinal.unique⟩

/-- A decimal that does not round to zero has digits. -/
theorem digits_pos {d : Decimal} (h : 0 < d.ordinal) : 0 < d.digits := by
  refine Nat.pos_of_ne_zero fun hzero => h.ne' ?_
  rw [ordinal_eq_iff, value, hzero, Nat.cast_zero, zero_mul]
  exact isNearest_zero

/-- Larger decimals round to larger numbers. -/
theorem ordinal_mono {d d' : Decimal} (h : d.value ≤ d'.value) : d.ordinal ≤ d'.ordinal :=
  d.isNearest_ordinal.le_of_le d'.isNearest_ordinal h

/-- Decimals of one value round to one number. -/
theorem ordinal_congr {d d' : Decimal} (h : d.value = d'.value) : d.ordinal = d'.ordinal :=
  Nat.le_antisymm (ordinal_mono h.le) (ordinal_mono h.ge)

/-- A decimal up to a magnitude rounds to no larger ordinal. -/
theorem ordinal_le_of_value_le {d : Decimal} {ordinal : Nat} (hle : ordinal ≤ infinityOrdinal)
    (h : d.value ≤ magnitude ordinal) : d.ordinal ≤ ordinal :=
  d.isNearest_ordinal.le_of_le (isNearest_magnitude hle) h

/-- A decimal from a magnitude on rounds to no smaller ordinal. -/
theorem le_ordinal_of_le_value {d : Decimal} {ordinal : Nat} (hle : ordinal ≤ infinityOrdinal)
    (h : magnitude ordinal ≤ d.value) : ordinal ≤ d.ordinal :=
  (isNearest_magnitude hle).le_of_le d.isNearest_ordinal h

end Decimal

end StackMachine
