import StackMachine.Decimal.Shortest
import StackMachine.Proofs.Binary64.Rounding

/-! # The shortest decimal reads back

The search for the shortest decimal starts from one that rounds to the ordinal and leaves it only
for another one that does. The start of last resort is the exact value, which has up to a thousand
digits and is not rounded at all.

* **`Decimal.ordinal_exact`** — the exact value of an ordinal rounds to it.
* **`Decimal.ordinal_climb`** — one step of the search keeps the ordinal; `Decimal.ordinal_coarsest`
  says so of all steps.
* **`Decimal.ordinal_shortest`** — the shortest decimal of a finite ordinal rounds to it.
* **`Decimal.ordinal_mul_pow`** — zeros may be moved from the exponent to the digits. -/

namespace StackMachine

namespace Binary64

/-- The magnitude of a nonzero ordinal is positive. -/
theorem units_pos {ordinal : Nat} (h : 0 < ordinal) : 0 < units ordinal := by
  by_cases hsmall : ordinal < leadingWeight
  · rwa [units_of_lt hsmall]
  · rw [units_of_le (Nat.not_lt.mp hsmall)]
    exact Nat.mul_pos (Nat.add_pos_left (by decide) _) (Nat.two_pow_pos _)

end Binary64

namespace Decimal

/-! ## The exact value -/

/-- The ordinal of digits over a power of ten. -/
theorem ordinal_negSucc (digits e : Nat) :
    (Decimal.mk digits (.negSucc e)).ordinal
      = if digits = 0 then 0
        else if digits.log2 + 1076 ≤ 3 * (e + 1) then 0
        else Binary64.nearest (digits * Binary64.unitsPerOne) (Nat.pow 10 (e + 1)) := rfl

/-- The ordinal of digits times a power of ten. -/
theorem ordinal_ofNat (digits e : Nat) :
    (Decimal.mk digits (.ofNat e)).ordinal
      = if digits = 0 then 0
        else if 310 ≤ e then Binary64.infinityOrdinal
        else Binary64.nearest (digits * Nat.pow 10 e * Binary64.unitsPerOne) 1 := rfl

/-- A power of five has at least twice as many bits as its exponent says. -/
theorem le_log2_mul_pow_five {m : Nat} (h : 0 < m) (n : Nat) : 2 * n ≤ (m * Nat.pow 5 n).log2 := by
  have hpos : 0 < m * Nat.pow 5 n := Nat.mul_pos h (Nat.pow_pos (by decide))
  refine (Nat.le_log2 (Nat.ne_of_gt hpos)).mpr ?_
  calc Nat.pow 2 (2 * n) = Nat.pow 4 n := Nat.pow_mul 2 2 n
    _ ≤ Nat.pow 5 n := Nat.pow_le_pow_left (by decide) n
    _ ≤ m * Nat.pow 5 n := Nat.le_mul_of_pos_left _ h

/-- Magnitudes counted in units of a negative power of two are decimals, because two times five is
ten; such a decimal rounds to the ordinal of the magnitude. -/
theorem ordinal_units_mul_pow_five {ordinal n : Nat} (hunit : Binary64.unitsPerOne = Nat.pow 2 n)
    (hn : 0 < n) (hlt : n < 1076) (hpos : 0 < ordinal)
    (hfinite : ordinal ≤ Binary64.infinityOrdinal) :
    (Decimal.mk (Binary64.units ordinal * Nat.pow 5 n) (-(n : Int))).ordinal = ordinal := by
  obtain ⟨e, rfl⟩ : ∃ e, n = e + 1 := ⟨n - 1, by omega⟩
  have hunits := Binary64.units_pos hpos
  have hten : 0 < Nat.pow 10 (e + 1) := Nat.pow_pos (by decide)
  have hdigits : Binary64.units ordinal * Nat.pow 5 (e + 1) ≠ 0 :=
    Nat.ne_of_gt (Nat.mul_pos hunits (Nat.pow_pos (by decide)))
  have hlarge : ¬ (Binary64.units ordinal * Nat.pow 5 (e + 1)).log2 + 1076 ≤ 3 * (e + 1) := by
    have hlog := le_log2_mul_pow_five hunits (e + 1)
    omega
  have hscale : Nat.pow 5 (e + 1) * Binary64.unitsPerOne = Nat.pow 10 (e + 1) := by
    rw [hunit]
    exact (Nat.mul_pow 5 2 (e + 1)).symm
  show (Decimal.mk (Binary64.units ordinal * Nat.pow 5 (e + 1)) (.negSucc e)).ordinal = ordinal
  rw [ordinal_negSucc, if_neg hdigits, if_neg hlarge, Nat.mul_assoc, hscale]
  calc Binary64.nearest (Binary64.units ordinal * Nat.pow 10 (e + 1)) (Nat.pow 10 (e + 1))
      = Binary64.nearest (Binary64.units ordinal * Nat.pow 10 (e + 1))
        (1 * Nat.pow 10 (e + 1)) := by rw [Nat.one_mul]
    _ = Binary64.nearest (Binary64.units ordinal) 1 := Binary64.nearest_mul_right _ _ hten
    _ = ordinal := Binary64.nearest_units hfinite

/-- **The exact value of an ordinal rounds to it.** -/
theorem ordinal_exact {ordinal : Nat} (hpos : 0 < ordinal)
    (hfinite : ordinal ≤ Binary64.infinityOrdinal) : (exact ordinal).ordinal = ordinal := by
  have hunit : Binary64.unitsPerOne = Nat.pow 2 1074 := by decide +kernel
  have hexact := ordinal_units_mul_pow_five hunit (by decide) (by decide) hpos hfinite
  unfold exact
  exact hexact

/-! ## The search -/

/-- A neighbour that is chosen rounds to the ordinal. -/
theorem ordinal_of_pickNeighbour? {ordinal below : Nat} {exponent : Int} {upperHalf : Bool}
    {d : Decimal} (h : pickNeighbour? ordinal below exponent upperHalf = some d) :
    d.ordinal = ordinal := by
  unfold pickNeighbour? at h
  by_cases hnearer : (Decimal.mk (if upperHalf then below + 1 else below) exponent).ordinal
    = ordinal
  · rw [if_pos hnearer] at h
    rwa [← Option.some.inj h]
  · rw [if_neg hnearer] at h
    by_cases hfarther : (Decimal.mk (if upperHalf then below else below + 1) exponent).ordinal
      = ordinal
    · rw [if_pos hfarther] at h
      rwa [← Option.some.inj h]
    · rw [if_neg hfarther] at h
      cases h

/-- A choice on the grid of a level rounds to the ordinal. -/
theorem ordinal_of_pickAt? {ordinal level : Nat} {d : Decimal}
    (h : pickAt? ordinal level = some d) :
    d.ordinal = ordinal :=
  ordinal_of_pickNeighbour? h

/-- **A step of the search keeps the ordinal.** -/
theorem ordinal_climb {ordinal : Nat} {reached : Nat × Decimal} (h : reached.2.ordinal = ordinal)
    (stride : Nat) : (climb ordinal reached stride).2.ordinal = ordinal := by
  unfold climb
  cases hpick : pickAt? ordinal (reached.1 + stride) with
  | some d => exact ordinal_of_pickAt? hpick
  | none => exact h

/-- All steps of the search keep the ordinal. -/
theorem ordinal_coarsest {ordinal : Nat} {best : Decimal} (h : best.ordinal = ordinal) (level : Nat)
    (strides : List Nat) : (coarsest ordinal level best strides).ordinal = ordinal := by
  have hfold : ∀ reached : Nat × Decimal, reached.2.ordinal = ordinal →
      (strides.foldl (climb ordinal) reached).2.ordinal = ordinal := by
    induction strides with
    | nil => exact fun _ hreached => hreached
    | cons stride strides ih => exact fun _ hreached => ih _ (ordinal_climb hreached stride)
  exact hfold (level, best) h

/-- **The shortest decimal of a finite ordinal rounds to it.** -/
theorem ordinal_shortest {ordinal : Nat} (hpos : 0 < ordinal)
    (hfinite : ordinal ≤ Binary64.infinityOrdinal) : (shortest ordinal).ordinal = ordinal := by
  have hexact := ordinal_exact hpos hfinite
  unfold shortest
  generalize topLevel ordinal - 32 = base
  generalize exact ordinal = start at hexact
  dsimp only
  cases hpick : pickAt? ordinal base with
  | some d => exact ordinal_coarsest (ordinal_of_pickAt? hpick) _ _
  | none => exact ordinal_coarsest hexact _ _

/-! ## Trailing zeros -/

/-- **Zeros of the exponent may be moved to the digits** of a decimal that is not too large to be
finite. -/
theorem ordinal_mul_pow {digits e : Nat}
    (h : (Decimal.mk digits (.ofNat e)).ordinal < Binary64.infinityOrdinal) :
    (Decimal.mk (digits * Nat.pow 10 e) 0).ordinal = (Decimal.mk digits (.ofNat e)).ordinal := by
  by_cases hzero : digits = 0
  · rw [hzero, Nat.zero_mul]
    show (Decimal.mk 0 (.ofNat 0)).ordinal = _
    rw [ordinal_ofNat, ordinal_ofNat, if_pos rfl, if_pos rfl]
  · have hproduct : digits * Nat.pow 10 e ≠ 0 :=
      Nat.mul_ne_zero hzero (Nat.ne_of_gt (Nat.pow_pos (by decide)))
    rw [ordinal_ofNat, if_neg hzero] at h ⊢
    by_cases hlarge : 310 ≤ e
    · -- so many zeros make an infinite number
      rw [if_pos hlarge] at h
      exact absurd h (Nat.lt_irrefl _)
    · have hsmall : ¬ 310 ≤ 0 := by decide
      show (Decimal.mk (digits * Nat.pow 10 e) (.ofNat 0)).ordinal = _
      rw [ordinal_ofNat, if_neg hproduct, if_neg hsmall, if_neg hlarge]
      show Binary64.nearest (digits * Nat.pow 10 e * 1 * Binary64.unitsPerOne) 1 = _
      rw [Nat.mul_one]

end Decimal

end StackMachine
