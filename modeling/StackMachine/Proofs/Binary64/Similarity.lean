import StackMachine.Binary64.Arith
import StackMachine.Numeral.Printer

/-! # Numbers up to the sign of zero

The two zeros differ in one bit, and so do many words that are not numbers. No operation of
arithmetic brings the difference to light, as long as nothing is divided by zero, and neither does
printing.

* **`Binary64.Similar`** — the same word, or two zeros, or two words that are not numbers.
* **`Binary64.Similar.eq`** — similar words are equal, unless they are zeros or not numbers.
* **`Binary64.Similar.add`**, **`Similar.sub`**, **`Similar.mul`**, **`Similar.div`** — similar
  operands have similar results; a divisor must not be zero, because the infinity of the quotient
  would show its sign.
* **`Binary64.Similar.print_eq`** — similar numbers have the same text. -/

namespace StackMachine

namespace Binary64

/-- **Similar numbers**: the same word, or two zeros, or two words that are not numbers. -/
def Similar (x y : Binary64) : Prop :=
  x = y ∨ (x.isZero = true ∧ y.isZero = true) ∨ (x.isNaN = true ∧ y.isNaN = true)

instance (x y : Binary64) : Decidable (x.Similar y) :=
  inferInstanceAs (Decidable (_ ∨ _ ∨ _))

/-! ## Words and their ordinals -/

/-- The ordinal of a number is the one that it is made of. -/
theorem ordinal_ofOrdinal {ordinal : Nat} (h : ordinal < signWeight) (negative : Bool) :
    (ofOrdinal negative ordinal).ordinal = ordinal := by
  have hlt : ordinal < 9223372036854775808 := h
  rw [Binary64.ordinal, ofOrdinal, UInt64.toNat_ofNat']
  cases negative with
  | true =>
    show (9223372036854775808 + ordinal) % 18446744073709551616 % 9223372036854775808 = ordinal
    omega
  | false =>
    show ordinal % 18446744073709551616 % 9223372036854775808 = ordinal
    omega

/-- The opposite number has the same ordinal. -/
@[simp] theorem ordinal_neg (x : Binary64) : x.neg.ordinal = x.ordinal :=
  ordinal_ofOrdinal (Nat.mod_lt _ (by decide)) _

/-- A zero is a zero, with either sign. -/
@[simp] theorem isZero_zero (negative : Bool) : (zero negative).isZero = true := by
  cases negative <;> decide

/-- A zero has the ordinal zero. -/
theorem ordinal_of_isZero {x : Binary64} (h : x.isZero = true) : x.ordinal = 0 := eq_of_beq h

/-- A zero is a number. -/
theorem isNaN_of_isZero {x : Binary64} (h : x.isZero = true) : x.isNaN = false := by
  rw [isNaN, ordinal_of_isZero h]
  decide

/-- A zero is not infinite. -/
theorem isInfinite_of_isZero {x : Binary64} (h : x.isZero = true) : x.isInfinite = false := by
  rw [isInfinite, ordinal_of_isZero h]
  decide

/-- What is not a number is not infinite. -/
theorem isInfinite_of_isNaN {x : Binary64} (h : x.isNaN = true) : x.isInfinite = false := by
  have hlt : infinityOrdinal < x.ordinal := of_decide_eq_true h
  exact beq_false_of_ne (Nat.ne_of_gt hlt)

/-- What is not a number is not zero. -/
theorem isZero_of_isNaN {x : Binary64} (h : x.isNaN = true) : x.isZero = false := by
  have hlt : infinityOrdinal < x.ordinal := of_decide_eq_true h
  exact beq_false_of_ne (Nat.ne_of_gt (Nat.zero_lt_of_lt hlt))

/-- Nothing is rounded to nothing. -/
@[simp] theorem nearest_zero (den : Nat) : nearest 0 den = 0 := by
  simp [nearest, roundQuotient]

/-- The magnitude of a zero. -/
@[simp] theorem units_zero : units 0 = 0 := by
  simp [units]

/-- **A zero over a number that is not zero is a zero.** -/
theorem isZero_div {x y : Binary64} (hx : x.isZero = true) (hy : ¬ y.isNaN = true)
    (hdivisor : y.isZero = false) : (x.div y).isZero = true := by
  simp only [div, isNaN_of_isZero hx, isInfinite_of_isZero hx, hy, hdivisor, ordinal_of_isZero hx,
    units_zero, Nat.zero_mul, nearest_zero]
  by_cases hinfinite : y.isInfinite = true
  · simp [hinfinite]
  · simp only [hinfinite]
    exact isZero_zero _

/-! ## Similar numbers -/

namespace Similar

variable {x x' y y' : Binary64}

/-- A number is similar to itself. -/
theorem refl (x : Binary64) : x.Similar x := Or.inl rfl

/-- Zeros are similar. -/
theorem of_isZero (h : x.isZero = true) (h' : x'.isZero = true) : x.Similar x' :=
  Or.inr (Or.inl ⟨h, h'⟩)

/-- Of similar words both are numbers or neither is. -/
theorem isNaN_eq (h : x.Similar x') : x.isNaN = x'.isNaN := by
  rcases h with rfl | ⟨hzero, hzero'⟩ | ⟨hnan, hnan'⟩
  · rfl
  · rw [isNaN_of_isZero hzero, isNaN_of_isZero hzero']
  · rw [hnan, hnan']

/-- Of similar numbers both are zeros or neither is. -/
theorem isZero_eq (h : x.Similar x') : x.isZero = x'.isZero := by
  rcases h with rfl | ⟨hzero, hzero'⟩ | ⟨hnan, hnan'⟩
  · rfl
  · rw [hzero, hzero']
  · rw [isZero_of_isNaN hnan, isZero_of_isNaN hnan']

/-- **Similar words are equal, unless they are zeros or not numbers.** -/
theorem eq (h : x.Similar x') (hnan : x.isNaN = false) (hzero : x.isZero = false) : x = x' := by
  rcases h with heq | ⟨hzero', -⟩ | ⟨hnan', -⟩
  · exact heq
  · simp [hzero] at hzero'
  · simp [hnan] at hnan'

/-- Similar infinities are equal. -/
theorem eq_of_isInfinite (h : x.Similar x') (hinfinite : x.isInfinite = true) : x = x' := by
  rcases h with heq | ⟨hzero, -⟩ | ⟨hnan, -⟩
  · exact heq
  · simp [isInfinite_of_isZero hzero] at hinfinite
  · simp [isInfinite_of_isNaN hnan] at hinfinite

/-- Of similar numbers both are infinite or neither is. -/
theorem isInfinite_eq (h : x.Similar x') : x.isInfinite = x'.isInfinite := by
  rcases h with rfl | ⟨hzero, hzero'⟩ | ⟨hnan, hnan'⟩
  · rfl
  · rw [isInfinite_of_isZero hzero, isInfinite_of_isZero hzero']
  · rw [isInfinite_of_isNaN hnan, isInfinite_of_isNaN hnan']

/-- Similar numbers have the same magnitude. -/
theorem ordinal_eq (h : x.Similar x') (hnan : x.isNaN = false) : x.ordinal = x'.ordinal := by
  rcases h with rfl | ⟨hzero, hzero'⟩ | ⟨hnan', -⟩
  · rfl
  · rw [ordinal_of_isZero hzero, ordinal_of_isZero hzero']
  · simp [hnan] at hnan'

/-- **Similar numbers have the same value.** -/
theorem scaled_eq (h : x.Similar x') (hnan : x.isNaN = false) : x.scaled = x'.scaled := by
  rcases h with rfl | ⟨hzero, hzero'⟩ | ⟨hnan', -⟩
  · rfl
  · -- the value of a zero is zero, whatever its sign
    simp [scaled, ordinal_of_isZero hzero, ordinal_of_isZero hzero']
  · simp [hnan] at hnan'

/-! ## Arithmetic on similar numbers -/

/-- **Similar numbers have similar sums.** Only a sum that is zero depends on the sign of a zero. -/
theorem add (hx : x.Similar x') (hy : y.Similar y') : (x.add y).Similar (x'.add y') := by
  rw [Binary64.add, Binary64.add, ← hx.isNaN_eq, ← hy.isNaN_eq, ← hx.isInfinite_eq,
    ← hy.isInfinite_eq]
  by_cases hnan : (x.isNaN || y.isNaN) = true
  · rw [if_pos hnan, if_pos hnan]
    exact refl nan
  rw [if_neg hnan, if_neg hnan]
  obtain ⟨hnumx, hnumy⟩ : x.isNaN = false ∧ y.isNaN = false := by simpa using hnan
  by_cases hinfx : x.isInfinite = true
  · obtain rfl := hx.eq_of_isInfinite hinfx
    rw [if_pos hinfx, if_pos hinfx]
    by_cases hinfy : y.isInfinite = true
    · obtain rfl := hy.eq_of_isInfinite hinfy
      exact refl _
    · simp only [hinfy]
      exact refl _
  rw [if_neg hinfx, if_neg hinfx]
  by_cases hinfy : y.isInfinite = true
  · obtain rfl := hy.eq_of_isInfinite hinfy
    rw [if_pos hinfy, if_pos hinfy]
    exact refl y
  rw [if_neg hinfy, if_neg hinfy, hx.scaled_eq hnumx, hy.scaled_eq hnumy]
  by_cases hsum : x'.scaled + y'.scaled = 0
  · simp only [if_pos hsum]
    exact of_isZero (isZero_zero _) (isZero_zero _)
  · simp only [if_neg hsum]
    exact refl _

/-- Similar numbers have similar opposites. -/
theorem neg (hx : x.Similar x') : x.neg.Similar x'.neg := by
  rcases hx with rfl | ⟨hzero, hzero'⟩ | ⟨hnan, hnan'⟩
  · exact refl _
  · refine of_isZero ?_ ?_
    · rwa [isZero, ordinal_neg]
    · rwa [isZero, ordinal_neg]
  · refine Or.inr (Or.inr ⟨?_, ?_⟩)
    · rwa [isNaN, ordinal_neg]
    · rwa [isNaN, ordinal_neg]

/-- **Similar numbers have similar differences.** -/
theorem sub (hx : x.Similar x') (hy : y.Similar y') : (x.sub y).Similar (x'.sub y') := by
  rw [Binary64.sub, Binary64.sub, ← hy.isNaN_eq]
  by_cases hnan : y.isNaN = true
  · rw [if_pos hnan, if_pos hnan]
    exact refl nan
  · rw [if_neg hnan, if_neg hnan]
    exact hx.add hy.neg

/-- **Similar numbers have similar products.** The sign of a product shows the signs of the factors,
but a factor that is zero makes the product zero or, beside an infinity, no number. -/
theorem mul (hx : x.Similar x') (hy : y.Similar y') : (x.mul y).Similar (x'.mul y') := by
  simp only [Binary64.mul, ← hx.isNaN_eq, ← hy.isNaN_eq, ← hx.isInfinite_eq, ← hy.isInfinite_eq,
    ← hx.isZero_eq, ← hy.isZero_eq]
  by_cases hnan : (x.isNaN || y.isNaN) = true
  · rw [if_pos hnan, if_pos hnan]
    exact refl nan
  rw [if_neg hnan, if_neg hnan]
  obtain ⟨hnumx, hnumy⟩ : x.isNaN = false ∧ y.isNaN = false := by simpa using hnan
  by_cases hinfx : x.isInfinite = true
  · obtain rfl := hx.eq_of_isInfinite hinfx
    rw [if_pos hinfx, if_pos hinfx]
    by_cases hzeroy : y.isZero = true
    · rw [if_pos hzeroy, if_pos hzeroy]
      exact refl nan
    · obtain rfl := hy.eq hnumy (eq_false_of_ne_true hzeroy)
      exact refl _
  rw [if_neg hinfx, if_neg hinfx]
  by_cases hinfy : y.isInfinite = true
  · obtain rfl := hy.eq_of_isInfinite hinfy
    rw [if_pos hinfy, if_pos hinfy]
    by_cases hzerox : x.isZero = true
    · rw [if_pos hzerox, if_pos hzerox]
      exact refl nan
    · obtain rfl := hx.eq hnumx (eq_false_of_ne_true hzerox)
      exact refl _
  rw [if_neg hinfy, if_neg hinfy, ← hx.ordinal_eq hnumx, ← hy.ordinal_eq hnumy]
  by_cases hzero : x.isZero = true ∨ y.isZero = true
  · have hproduct : units x.ordinal * units y.ordinal = 0 := by
      rcases hzero with hzerox | hzeroy
      · rw [ordinal_of_isZero hzerox, units_zero, Nat.zero_mul]
      · rw [ordinal_of_isZero hzeroy, units_zero, Nat.mul_zero]
    rw [hproduct, nearest_zero]
    exact of_isZero (isZero_zero _) (isZero_zero _)
  · obtain ⟨hzerox, hzeroy⟩ : x.isZero = false ∧ y.isZero = false := by simpa using hzero
    obtain rfl := hx.eq hnumx hzerox
    obtain rfl := hy.eq hnumy hzeroy
    exact refl _

/-- **Similar numbers have similar quotients**, when the divisor is not zero. -/
theorem div (hx : x.Similar x') (hy : y.Similar y') (hdivisor : y.isZero = false) :
    (x.div y).Similar (x'.div y') := by
  by_cases hnumy : y.isNaN = true
  · simp only [Binary64.div, ← hy.isNaN_eq, hnumy, Bool.or_true, if_true]
    exact refl nan
  -- a divisor that is a number and not zero is the same on both sides
  obtain rfl := hy.eq (eq_false_of_ne_true hnumy) hdivisor
  by_cases hnumx : x.isNaN = true
  · simp only [Binary64.div, ← hx.isNaN_eq, hnumx, Bool.true_or, if_true]
    exact refl nan
  by_cases hzerox : x.isZero = true
  · have hzerox' : x'.isZero = true := hx.isZero_eq ▸ hzerox
    exact of_isZero (isZero_div hzerox hnumy hdivisor) (isZero_div hzerox' hnumy hdivisor)
  · obtain rfl := hx.eq (eq_false_of_ne_true hnumx) (eq_false_of_ne_true hzerox)
    exact refl _

/-! ## The text of similar numbers -/

/-- **Similar numbers have the same text.** -/
theorem print_eq (hx : x.Similar x') : Numeral.print x = Numeral.print x' := by
  rcases hx with rfl | ⟨hzero, hzero'⟩ | ⟨hnan, hnan'⟩
  · rfl
  · simp [Numeral.print, isNaN_of_isZero, isInfinite_of_isZero, hzero, hzero']
  · simp [Numeral.print, hnan, hnan']

end Similar

end Binary64

end StackMachine
