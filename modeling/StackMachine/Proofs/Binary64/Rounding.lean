import StackMachine.Binary64.Round

/-! # Rounding keeps what can be represented

A quotient that is exactly the magnitude of an ordinal rounds to this ordinal, whichever way it is
written as a quotient.

* **`roundQuotient_mul_right`** and **`Binary64.nearest_mul_right`** — rounding depends on the
  quotient only.
* **`Binary64.log2_units`** — a magnitude with an exponent field has fifty-three bits before its
  trailing zeros.
* **`Binary64.nearest_units`** — the magnitude of an ordinal up to that of infinity rounds to the
  ordinal. -/

namespace StackMachine

/-! ## Quotients -/

/-- A common factor of numerator and denominator does not matter to rounding. -/
theorem roundQuotient_mul_right (num den : Nat) {k : Nat} (hk : 0 < k) :
    roundQuotient (num * k) (den * k) = roundQuotient num den := by
  have hbelow : 2 * (num % den * k) < den * k ↔ 2 * (num % den) < den := by
    rw [← Nat.mul_assoc, Nat.mul_lt_mul_right hk]
  have habove : den * k < 2 * (num % den * k) ↔ den < 2 * (num % den) := by
    rw [← Nat.mul_assoc, Nat.mul_lt_mul_right hk]
  simp only [roundQuotient, Nat.mul_div_mul_right num den hk, Nat.mul_mod_mul_right, hbelow, habove]

/-- A quotient without a rest is itself. -/
theorem roundQuotient_mul_self (n : Nat) {den : Nat} (h : 0 < den) :
    roundQuotient (n * den) den = n := by
  have hrest : 2 * 0 < den := h
  simp only [roundQuotient, Nat.mul_div_cancel n h, Nat.mul_mod_left, if_pos hrest]

namespace Binary64

/-- A common factor does not matter to the nearest ordinal. -/
theorem nearest_mul_right (num den : Nat) {k : Nat} (hk : 0 < k) :
    nearest (num * k) (den * k) = nearest num den := by
  simp only [nearest, Nat.mul_div_mul_right num den hk, Nat.mul_right_comm den k,
    roundQuotient_mul_right _ _ hk]

/-! ## Magnitudes of ordinals -/

/-- Without an exponent field, the magnitude is the ordinal. -/
theorem units_of_lt {ordinal : Nat} (h : ordinal < leadingWeight) : units ordinal = ordinal := by
  simp only [units, Nat.div_eq_of_lt h, Nat.mod_eq_of_lt h, if_true]

/-- With an exponent field, the magnitude is a significand with its leading bit, shifted. -/
theorem units_of_le {ordinal : Nat} (h : leadingWeight ≤ ordinal) :
    units ordinal
      = (leadingWeight + ordinal % leadingWeight) * Nat.pow 2 (ordinal / leadingWeight - 1) := by
  have hpos : ordinal / leadingWeight ≠ 0 := Nat.ne_of_gt (Nat.div_pos h (by decide))
  simp only [units, if_neg hpos]

/-- **The leading bit of a magnitude** is the fifty-third one of its significand. -/
theorem log2_units {ordinal : Nat} (h : leadingWeight ≤ ordinal) :
    (units ordinal).log2 = 52 + (ordinal / leadingWeight - 1) := by
  have hfraction : ordinal % leadingWeight < leadingWeight := Nat.mod_lt _ (by decide)
  have hpos : 0 < Nat.pow 2 (ordinal / leadingWeight - 1) := Nat.two_pow_pos _
  have hweight : leadingWeight = Nat.pow 2 52 := by decide
  have hlower : Nat.pow 2 (52 + (ordinal / leadingWeight - 1)) ≤ units ordinal := by
    rw [units_of_le h]
    calc Nat.pow 2 (52 + (ordinal / leadingWeight - 1))
        = leadingWeight * Nat.pow 2 (ordinal / leadingWeight - 1) := by
          rw [hweight]
          exact Nat.pow_add 2 52 _
      _ ≤ _ := Nat.mul_le_mul_right _ (Nat.le_add_right _ _)
  have hupper : units ordinal < Nat.pow 2 (52 + (ordinal / leadingWeight - 1) + 1) := by
    rw [units_of_le h]
    calc _ < (leadingWeight + leadingWeight) * Nat.pow 2 (ordinal / leadingWeight - 1) :=
          Nat.mul_lt_mul_of_pos_right (Nat.add_lt_add_left hfraction _) hpos
      _ = Nat.pow 2 (53 + (ordinal / leadingWeight - 1)) := by
          rw [hweight]
          exact (Nat.pow_add 2 53 _).symm
      _ = _ := by rw [Nat.add_right_comm]
  have hne : units ordinal ≠ 0 := Nat.ne_of_gt (Nat.lt_of_lt_of_le (Nat.two_pow_pos _) hlower)
  exact (Nat.log2_eq_iff hne).mpr ⟨hlower, hupper⟩

/-- **What can be represented is not rounded**: the magnitude of an ordinal rounds to it. -/
theorem nearest_units {ordinal : Nat} (h : ordinal ≤ infinityOrdinal) :
    nearest (units ordinal) 1 = ordinal := by
  by_cases hsmall : ordinal < leadingWeight
  · -- no bit is dropped from fewer than fifty-three
    have hshift : ordinal.log2 - 52 = 0 := by
      by_cases hzero : ordinal = 0
      · rw [hzero]
        decide
      · have hlt : ordinal.log2 < 52 := (Nat.log2_lt hzero).mpr hsmall
        omega
    have hround : roundQuotient ordinal (1 * Nat.pow 2 0) = ordinal := by
      simpa using roundQuotient_mul_self ordinal Nat.one_pos
    simp only [nearest, units_of_lt hsmall, Nat.div_one, hshift, hround, Nat.zero_mul, Nat.zero_add]
    exact Nat.min_eq_left h
  · -- the bits that are dropped are the trailing zeros
    have hlarge := Nat.not_lt.mp hsmall
    have hshift : (units ordinal).log2 - 52 = ordinal / leadingWeight - 1 := by
      rw [log2_units hlarge]
      omega
    have hround : roundQuotient (units ordinal) (1 * Nat.pow 2 (ordinal / leadingWeight - 1))
        = leadingWeight + ordinal % leadingWeight := by
      rw [units_of_le hlarge, Nat.one_mul]
      exact roundQuotient_mul_self _ (Nat.two_pow_pos _)
    have hordinal :
        (ordinal / leadingWeight - 1) * leadingWeight + (leadingWeight + ordinal % leadingWeight)
          = ordinal := by
      have hpos : 1 ≤ ordinal / leadingWeight := Nat.div_pos hlarge (by decide)
      rw [← Nat.add_assoc, ← Nat.succ_mul, Nat.succ_eq_add_one, Nat.sub_add_cancel hpos]
      exact Nat.div_add_mod' ordinal leadingWeight
    simp only [nearest, Nat.div_one, hshift, hround, hordinal]
    exact Nat.min_eq_left h

end Binary64

end StackMachine
