import Mathlib.Algebra.Order.Field.Rat
import Mathlib.Data.Rat.Cast.Order
import Mathlib.Tactic.Linarith
import Mathlib.Tactic.Ring
import Mathlib.Tactic.FieldSimp
import StackMachine.Proofs.Binary64.Rounding

/-! # The nearest number

Rounding is specified on exact rational numbers: the ordinal that is chosen has the magnitude
nearest to the rational, and is even where two magnitudes are equally near. Infinity takes part as
if its magnitude were the power of two behind the largest finite number, which is how an overflow is
decided.

* **`Binary64.magnitude`** and **`Binary64.value`** — the exact magnitude of an ordinal and the
  exact value of a number.
* **`Binary64.IsNearest`** — an ordinal is nearest to a rational number, ties to even.
* **`Binary64.IsNearest.le_of_le`** — rounding is monotone; `Binary64.IsNearest.unique` says that
  there is one nearest ordinal.
* **`Binary64.IsNearest.exists_natCast`** — what an integer rounds to is an integer.
* **`Binary64.isNearest_of_neighbours`** — only the neighbours of an ordinal can be nearer.
* **`Binary64.isNearest_infinity_iff`** and **`Binary64.isNearest_zero_iff`** — where an overflow
  begins and where what is left of an underflow ends.
* **`Binary64.isNearest_nearest`** — `Binary64.nearest` finds the nearest ordinal. -/

namespace StackMachine

/-! ## Rounding a quotient -/

/-- A quotient is rounded down below a half, up above a half, and to an even number at a half. -/
theorem roundQuotient_cases (num den : Nat) :
    (2 * (num % den) < den ∧ roundQuotient num den = num / den) ∨
    (den < 2 * (num % den) ∧ roundQuotient num den = num / den + 1) ∨
    (2 * (num % den) = den ∧ roundQuotient num den % 2 = 0 ∧
      (roundQuotient num den = num / den ∨ roundQuotient num den = num / den + 1)) := by
  simp only [roundQuotient]
  generalize num / den = quotient
  generalize num % den = rest
  split_ifs <;> omega

/-- **The rounded quotient is off by at most a half**, and even when it is off by a half. -/
theorem roundQuotient_bounds (num : Nat) {den : Nat} (h : 0 < den) :
    2 * num ≤ (2 * roundQuotient num den + 1) * den ∧
    2 * roundQuotient num den * den ≤ 2 * num + den ∧
    (2 * num = (2 * roundQuotient num den + 1) * den ∨
      2 * roundQuotient num den * den = 2 * num + den → roundQuotient num den % 2 = 0) := by
  have hsplit := Nat.div_add_mod' num den
  have hrest := Nat.mod_lt num h
  have hcases := roundQuotient_cases num den
  generalize roundQuotient num den = rounded at *
  generalize num / den = quotient at *
  generalize num % den = rest at *
  obtain ⟨hside, rfl⟩ | ⟨hside, rfl⟩ | ⟨hside, heven, rfl | rfl⟩ := hcases
  · refine ⟨by nlinarith, by nlinarith, ?_⟩
    rintro (htie | htie) <;> nlinarith
  · refine ⟨by nlinarith, by nlinarith, ?_⟩
    rintro (htie | htie) <;> nlinarith
  · exact ⟨by nlinarith, by nlinarith, fun _ => heven⟩
  · exact ⟨by nlinarith, by nlinarith, fun _ => heven⟩

namespace Binary64

/-! ## Steps between magnitudes -/

/-- The number of low bits that the magnitudes from an ordinal up to the next power of two have
clear. -/
def shiftOf (ordinal : Nat) : Nat := ordinal / leadingWeight - 1

/-- A significand and a number of dropped bits spell an ordinal, also when the significand has just
been carried into the next power of two. -/
theorem units_shift {shift significand : Nat} (hnormal : shift = 0 ∨ leadingWeight ≤ significand)
    (hle : significand ≤ 2 * leadingWeight) :
    units (shift * leadingWeight + significand) = significand * 2 ^ shift := by
  by_cases hsmall : significand < leadingWeight
  · -- a subnormal number
    obtain rfl : shift = 0 := hnormal.resolve_right (Nat.not_le.mpr hsmall)
    rw [Nat.zero_mul, Nat.zero_add, units_of_lt hsmall, pow_zero, Nat.mul_one]
  · have hlarge : leadingWeight ≤ shift * leadingWeight + significand := by omega
    rw [units_of_le hlarge, Nat.pow_eq]
    unfold leadingWeight at *
    by_cases hcarried : significand = 2 * 4503599627370496
    · have hexponent : (shift * 4503599627370496 + significand) / 4503599627370496 - 1
          = shift + 1 := by omega
      have hfraction : (shift * 4503599627370496 + significand) % 4503599627370496 = 0 := by omega
      rw [hexponent, hfraction, hcarried, Nat.add_zero, Nat.mul_comm 2, Nat.mul_assoc, pow_succ']
    · have hexponent : (shift * 4503599627370496 + significand) / 4503599627370496 - 1 = shift := by
        omega
      have hfraction :
          4503599627370496 + (shift * 4503599627370496 + significand) % 4503599627370496
            = significand := by omega
      rw [hexponent, hfraction]

/-- Every ordinal is spelled by a significand behind its shift. -/
theorem exists_significand (ordinal : Nat) :
    ∃ significand, ordinal = shiftOf ordinal * leadingWeight + significand ∧
      (shiftOf ordinal = 0 ∨ leadingWeight ≤ significand) ∧ significand < 2 * leadingWeight := by
  refine ⟨ordinal - shiftOf ordinal * leadingWeight, ?_⟩
  unfold shiftOf leadingWeight
  omega

/-- **The next magnitude** is one unit of the last place away. -/
theorem units_succ (ordinal : Nat) : units (ordinal + 1) = units ordinal + 2 ^ shiftOf ordinal := by
  obtain ⟨significand, hordinal, hnormal, hlt⟩ := exists_significand ordinal
  generalize shiftOf ordinal = shift at *
  subst hordinal
  rw [Nat.add_assoc, units_shift hnormal (Nat.le_of_lt hlt),
    units_shift (hnormal.imp_right Nat.le_succ_of_le) hlt, Nat.succ_mul]

/-- The previous magnitude is at most one unit of the last place away. -/
theorem units_le_pred (ordinal : Nat) :
    units ordinal ≤ units (ordinal - 1) + 2 ^ shiftOf ordinal := by
  cases ordinal with
  | zero => exact Nat.le_add_right _ _
  | succ ordinal =>
    have hmono : shiftOf ordinal ≤ shiftOf (ordinal + 1) :=
      Nat.sub_le_sub_right (Nat.div_le_div_right (Nat.le_succ ordinal)) 1
    rw [Nat.add_sub_cancel, units_succ]
    exact Nat.add_le_add_left (Nat.pow_le_pow_right (by decide) hmono) _

/-- A unit of the last place divides the magnitude. -/
theorem dvd_units (ordinal : Nat) : 2 ^ shiftOf ordinal ∣ units ordinal := by
  obtain ⟨significand, hordinal, hnormal, hlt⟩ := exists_significand ordinal
  generalize shiftOf ordinal = shift at *
  subst hordinal
  rw [units_shift hnormal (Nat.le_of_lt hlt)]
  exact Nat.dvd_mul_left _ _

/-- **Ordinals order the magnitudes.** -/
theorem units_strictMono : StrictMono units :=
  strictMono_nat_of_lt_succ fun ordinal => by
    rw [units_succ]
    exact Nat.lt_add_of_pos_right (Nat.two_pow_pos _)

/-! ## Exact values -/

/-- One is a positive number of units. -/
theorem unitsPerOne_pos : (0 : ℚ) < unitsPerOne := by
  have hpos : 0 < unitsPerOne := by decide +kernel
  exact_mod_cast hpos

/-- The **magnitude** of an ordinal. For infinity it is the power of two behind the largest finite
magnitude. -/
def magnitude (ordinal : Nat) : ℚ := units ordinal / unitsPerOne

/-- The exact **value** of a finite number. -/
def value (x : Binary64) : ℚ := x.scaled / unitsPerOne

/-- Ordinals order the magnitudes. -/
theorem magnitude_strictMono : StrictMono magnitude := fun _ _ h =>
  div_lt_div_of_pos_right (Nat.cast_lt.mpr (units_strictMono h)) unitsPerOne_pos

/-- The least magnitude. -/
theorem magnitude_zero : magnitude 0 = 0 := by
  simp [magnitude, units]

/-- The least positive magnitude. -/
theorem magnitude_one : magnitude 1 = 1 / unitsPerOne := by
  rw [magnitude, units_of_lt (by decide), Nat.cast_one]

/-- A number is its magnitude with a sign. -/
theorem value_eq (x : Binary64) :
    x.value = if x.negative then -magnitude x.ordinal else magnitude x.ordinal := by
  unfold value scaled magnitude
  split <;> push_cast <;> ring

/-- The absolute value of a number is its magnitude. -/
theorem abs_value (x : Binary64) : |x.value| = magnitude x.ordinal := by
  have hnonneg : 0 ≤ magnitude x.ordinal := by
    rw [← magnitude_zero]
    exact magnitude_strictMono.monotone (Nat.zero_le _)
  rw [value_eq]
  split
  · rw [abs_neg, abs_of_nonneg hnonneg]
  · exact abs_of_nonneg hnonneg

/-- The distance of two numbers of one sign is that of their magnitudes. -/
theorem abs_value_sub (x : Binary64) (q : ℚ) :
    |x.value - (if x.negative then -q else q)| = |magnitude x.ordinal - q| := by
  rw [value_eq]
  cases x.negative with
  | true =>
    rw [if_pos rfl, if_pos rfl, ← neg_sub', abs_neg]
  | false => rfl

/-- A number other than zero is negative if its sign is. -/
theorem value_neg_iff {x : Binary64} (hpos : 0 < x.ordinal) : x.value < 0 ↔ x.negative = true := by
  have hmagnitude : 0 < magnitude x.ordinal := by
    rw [← magnitude_zero]
    exact magnitude_strictMono hpos
  rw [value_eq]
  cases x.negative with
  | true => simpa using hmagnitude
  | false => simpa using hmagnitude.le

/-- A number is an integer if its magnitude is a natural number. -/
theorem value_eq_intCast_iff (x : Binary64) :
    (∃ n : ℤ, x.value = n) ↔ ∃ n : Nat, magnitude x.ordinal = n := by
  constructor
  · rintro ⟨n, hn⟩
    refine ⟨n.natAbs, ?_⟩
    rw [← abs_value, hn, Nat.cast_natAbs, Int.cast_abs]
  · rintro ⟨n, hn⟩
    rw [value_eq, hn]
    cases x.negative with
    | true => exact ⟨-n, by simp⟩
    | false => exact ⟨n, by simp⟩

/-! ## The nearest ordinal -/

/-- **An ordinal is nearest to a rational number**: no other magnitude is nearer, and it is even if
another one is as near. The parity of an ordinal is that of the significand. -/
structure IsNearest (q : ℚ) (ordinal : Nat) : Prop where
  /-- The ordinal is that of a number. -/
  le_infinity : ordinal ≤ infinityOrdinal
  /-- No magnitude is nearer. -/
  closest : ∀ other ≤ infinityOrdinal, |q - magnitude ordinal| ≤ |q - magnitude other|
  /-- A tie goes to the even one. -/
  even_of_tie : ∀ other ≤ infinityOrdinal, other ≠ ordinal →
    |q - magnitude other| = |q - magnitude ordinal| → ordinal % 2 = 0

/-- Of two numbers, the smaller one is at least as near as the larger one up to the point halfway
between them. -/
theorem abs_sub_le_abs_sub_iff {q a b : ℚ} (h : a < b) : |q - a| ≤ |q - b| ↔ 2 * q ≤ a + b := by
  rcases abs_cases (q - a) with ⟨ha, _⟩ | ⟨ha, _⟩ <;>
    rcases abs_cases (q - b) with ⟨hb, _⟩ | ⟨hb, _⟩ <;>
    rw [ha, hb] <;> constructor <;> intro <;> linarith

/-- Of two numbers, the larger one is at least as near as the smaller one from the point halfway
between them. -/
theorem abs_sub_le_abs_sub_iff' {q a b : ℚ} (h : a < b) : |q - b| ≤ |q - a| ↔ a + b ≤ 2 * q := by
  rcases abs_cases (q - a) with ⟨ha, _⟩ | ⟨ha, _⟩ <;>
    rcases abs_cases (q - b) with ⟨hb, _⟩ | ⟨hb, _⟩ <;>
    rw [ha, hb] <;> constructor <;> intro <;> linarith

namespace IsNearest

variable {p q r : ℚ} {ordinal other : Nat}

/-- Up to the midpoint to any larger magnitude. -/
theorem upper (h : IsNearest q ordinal) (hlt : ordinal < other) (hle : other ≤ infinityOrdinal) :
    2 * q ≤ magnitude ordinal + magnitude other :=
  (abs_sub_le_abs_sub_iff (magnitude_strictMono hlt)).mp (h.closest other hle)

/-- From the midpoint to any smaller magnitude. -/
theorem lower (h : IsNearest q ordinal) (hlt : other < ordinal) :
    magnitude other + magnitude ordinal ≤ 2 * q :=
  (abs_sub_le_abs_sub_iff' (magnitude_strictMono hlt)).mp
    (h.closest other (Nat.le_of_lt (hlt.trans_le h.le_infinity)))

/-- At the midpoint to another magnitude the ordinal is even. -/
theorem even_of_midpoint (h : IsNearest q ordinal) (hle : other ≤ infinityOrdinal)
    (hne : other ≠ ordinal) (hmid : 2 * q = magnitude other + magnitude ordinal) :
    ordinal % 2 = 0 := by
  refine h.even_of_tie other hle hne ?_
  have hopposite : q - magnitude other = -(q - magnitude ordinal) := by linarith
  rw [hopposite, abs_neg]

/-- Two ordinals nearest to one rational number, or to two of them in this order, are in this
order. -/
theorem le_of_le (hp : IsNearest p ordinal) (hq : IsNearest q other) (hpq : p ≤ q) :
    ordinal ≤ other := by
  by_contra hgt
  have hlt : other < ordinal := Nat.not_le.mp hgt
  have hupper := hq.upper hlt hp.le_infinity
  have hlower := hp.lower hlt
  -- both are at the midpoint, so both are even, and an odd one lies between them
  have hodd : other + 1 < ordinal := by
    have heven := hp.even_of_midpoint hq.le_infinity hlt.ne (by linarith)
    have heven' := hq.even_of_midpoint hp.le_infinity hlt.ne' (by linarith)
    omega
  have hbetween := hq.upper (Nat.lt_succ_self other) (Nat.le_of_lt (hodd.trans_le hp.le_infinity))
  have hnext := magnitude_strictMono hodd
  linarith

/-- **There is one nearest ordinal.** -/
theorem unique (h : IsNearest q ordinal) (h' : IsNearest q other) : ordinal = other :=
  Nat.le_antisymm (h.le_of_le h' le_rfl) (h'.le_of_le h le_rfl)

end IsNearest

/-- An ordinal is nearest if it is at least as near as its two neighbours. -/
theorem isNearest_of_neighbours {q : ℚ} {ordinal : Nat} (hle : ordinal ≤ infinityOrdinal)
    (hupper : ordinal < infinityOrdinal → 2 * q ≤ magnitude ordinal + magnitude (ordinal + 1))
    (hlower : ∀ below, below + 1 = ordinal → magnitude below + magnitude ordinal ≤ 2 * q)
    (heven : (ordinal < infinityOrdinal ∧ 2 * q = magnitude ordinal + magnitude (ordinal + 1)) ∨
      (∃ below, below + 1 = ordinal ∧ magnitude below + magnitude ordinal = 2 * q) →
        ordinal % 2 = 0) :
    IsNearest q ordinal := by
  have habove : ∀ other ≤ infinityOrdinal, ordinal < other →
      2 * q ≤ magnitude ordinal + magnitude other ∧
      (2 * q = magnitude ordinal + magnitude other → ordinal % 2 = 0) := by
    intro other hother hlt
    have hnext := hupper (hlt.trans_le hother)
    have hmono := magnitude_strictMono.monotone (Nat.succ_le_of_lt hlt)
    exact ⟨by linarith,
      fun htie => heven (Or.inl ⟨hlt.trans_le hother, le_antisymm hnext (by linarith)⟩)⟩
  have hbelow : ∀ other, other < ordinal → magnitude other + magnitude ordinal ≤ 2 * q ∧
      (magnitude other + magnitude ordinal = 2 * q → ordinal % 2 = 0) := by
    intro other hlt
    obtain ⟨below, rfl⟩ : ∃ below, ordinal = below + 1 := ⟨ordinal - 1, by omega⟩
    have hprevious := hlower below rfl
    have hmono := magnitude_strictMono.monotone (Nat.le_of_lt_succ hlt)
    exact ⟨by linarith,
      fun htie => heven (Or.inr ⟨below, rfl, le_antisymm hprevious (by linarith)⟩)⟩
  refine ⟨hle, fun other hother => ?_, fun other hother hne htie => ?_⟩
  · obtain hlt | rfl | hlt := Nat.lt_trichotomy other ordinal
    · exact (abs_sub_le_abs_sub_iff' (magnitude_strictMono hlt)).mpr (hbelow other hlt).1
    · exact le_rfl
    · exact (abs_sub_le_abs_sub_iff (magnitude_strictMono hlt)).mpr (habove other hother hlt).1
  · obtain hlt | hlt := Nat.lt_or_gt_of_ne hne
    · have hmid := (abs_sub_le_abs_sub_iff (magnitude_strictMono hlt)).mp htie.le
      exact (hbelow other hlt).2 (le_antisymm (hbelow other hlt).1 hmid)
    · have hmid := (abs_sub_le_abs_sub_iff' (magnitude_strictMono hlt)).mp htie.le
      exact (habove other hother hlt).2 (le_antisymm (habove other hother hlt).1 hmid)

/-- The exact magnitude of an ordinal rounds to it. -/
theorem isNearest_magnitude {ordinal : Nat} (h : ordinal ≤ infinityOrdinal) :
    IsNearest (magnitude ordinal) ordinal := by
  refine ⟨h, fun other _ => ?_, fun other _ hne htie => ?_⟩
  · rw [sub_self, abs_zero]
    exact abs_nonneg _
  · rw [sub_self, abs_zero, abs_eq_zero, sub_eq_zero] at htie
    exact absurd (magnitude_strictMono.injective htie).symm hne

/-! ## Overflow and underflow -/

/-- Everything from the midpoint between the last two magnitudes on rounds to infinity, because
infinity is even. -/
theorem isNearest_infinity_iff_midpoint {q : ℚ} :
    IsNearest q infinityOrdinal ↔
      magnitude (infinityOrdinal - 1) + magnitude infinityOrdinal ≤ 2 * q := by
  refine ⟨fun h => h.lower (by decide), fun h => ?_⟩
  refine isNearest_of_neighbours le_rfl (fun hlt => absurd hlt (Nat.lt_irrefl _))
    (fun below hbelow => ?_) (fun _ => by decide)
  obtain rfl : below = infinityOrdinal - 1 := by omega
  exact h

/-- Everything up to the midpoint between the first two magnitudes rounds to zero, because zero is
even. -/
theorem isNearest_zero_iff_midpoint {q : ℚ} : IsNearest q 0 ↔ 2 * q ≤ magnitude 1 := by
  constructor
  · intro h
    have hupper := h.upper Nat.one_pos (by decide)
    rwa [magnitude_zero, zero_add] at hupper
  · intro h
    refine isNearest_of_neighbours (Nat.zero_le _) (fun _ => ?_) (fun below hbelow => ?_)
      (fun _ => rfl)
    · rwa [magnitude_zero, zero_add]
    · exact absurd hbelow (Nat.succ_ne_zero below)

/-- Everything from the power of two behind the largest finite number on rounds to infinity. -/
theorem isNearest_infinity {q : ℚ} (h : magnitude infinityOrdinal ≤ q) :
    IsNearest q infinityOrdinal := by
  have hlt : magnitude (infinityOrdinal - 1) < magnitude infinityOrdinal :=
    magnitude_strictMono (by decide)
  exact isNearest_infinity_iff_midpoint.mpr (by linarith)

/-- **Overflow** begins half a step before the power of two behind the largest finite number. -/
theorem isNearest_infinity_iff {q : ℚ} {high low : Nat}
    (hhigh : units infinityOrdinal = 2 ^ high * unitsPerOne)
    (hlow : units (infinityOrdinal - 1) + 2 * 2 ^ low * unitsPerOne = units infinityOrdinal) :
    IsNearest q infinityOrdinal ↔ 2 ^ high - 2 ^ low ≤ q := by
  have hinfinity : magnitude infinityOrdinal = 2 ^ high := by
    rw [magnitude, hhigh, Nat.cast_mul, mul_div_cancel_right₀ _ unitsPerOne_pos.ne']
    push_cast
    rfl
  have hlargest : magnitude (infinityOrdinal - 1) + 2 * 2 ^ low = 2 ^ high := by
    rw [← hinfinity, magnitude, magnitude, ← hlow]
    have hunit := unitsPerOne_pos.ne'
    push_cast
    field_simp
  rw [isNearest_infinity_iff_midpoint, hinfinity]
  constructor <;> intro h <;> linarith

/-- **Underflow** to zero ends at half the least magnitude. -/
theorem isNearest_zero_iff {q : ℚ} {bits : Nat} (hbits : 2 * unitsPerOne = 2 ^ bits) :
    IsNearest q 0 ↔ q ≤ 1 / 2 ^ bits := by
  have hbits' : (2 : ℚ) ^ bits = 2 * unitsPerOne := by exact_mod_cast hbits.symm
  have hhalf : 2 * (1 / 2 ^ bits : ℚ) = magnitude 1 := by
    have hunit := unitsPerOne_pos.ne'
    rw [magnitude_one, hbits']
    field_simp
  rw [isNearest_zero_iff_midpoint, ← hhalf]
  constructor <;> intro h <;> linarith

/-! ## Half a unit of the last place -/

/-- What rounds to an ordinal is at most half a unit of the last place above its magnitude. -/
theorem IsNearest.units_upper {q : ℚ} {ordinal : Nat} (h : IsNearest q ordinal)
    (hfinite : ordinal < infinityOrdinal) :
    2 * (q * unitsPerOne) ≤ 2 * units ordinal + 2 ^ shiftOf ordinal := by
  have hmid := h.upper (Nat.lt_succ_self ordinal) hfinite
  rw [magnitude, magnitude, ← add_div, le_div_iff₀ unitsPerOne_pos, Nat.succ_eq_add_one,
    units_succ] at hmid
  push_cast at hmid
  linarith

/-- What rounds to an ordinal is at most half a unit of the last place below its magnitude. -/
theorem IsNearest.units_lower {q : ℚ} {ordinal : Nat} (h : IsNearest q ordinal) (hq : 0 ≤ q) :
    2 * (units ordinal : ℚ) ≤ 2 * (q * unitsPerOne) + 2 ^ shiftOf ordinal := by
  have hstep : (units ordinal : ℚ) ≤ units (ordinal - 1) + 2 ^ shiftOf ordinal := by
    exact_mod_cast units_le_pred ordinal
  have hmid : magnitude (ordinal - 1) + magnitude ordinal ≤ 2 * q := by
    obtain rfl | hpos := Nat.eq_zero_or_pos ordinal
    · simpa [magnitude_zero] using hq
    · exact h.lower (Nat.sub_lt hpos Nat.one_pos)
  rw [magnitude, magnitude, ← add_div, div_le_iff₀ unitsPerOne_pos] at hmid
  linarith

/-- **What an integer rounds to is an integer.** Where a unit of the last place is not larger than
one, the integer is a multiple of it, so it is the magnitude itself; elsewhere all magnitudes are
integers. -/
theorem IsNearest.exists_natCast {n ordinal bits : Nat} (h : IsNearest n ordinal)
    (hfinite : ordinal < infinityOrdinal) (hbits : unitsPerOne = 2 ^ bits) :
    ∃ m : Nat, magnitude ordinal = m := by
  have hunit := unitsPerOne_pos
  obtain ⟨count, hcount⟩ := dvd_units ordinal
  obtain hlarge | hsmall := Nat.le_total bits (shiftOf ordinal)
  · obtain ⟨scale, hscale⟩ := Nat.pow_dvd_pow 2 hlarge
    refine ⟨scale * count, ?_⟩
    rw [magnitude, div_eq_iff hunit.ne', hcount, hscale, ← hbits]
    push_cast
    ring
  · obtain ⟨point, hpoint⟩ : 2 ^ shiftOf ordinal ∣ n * unitsPerOne :=
      Dvd.dvd.mul_left (hbits ▸ Nat.pow_dvd_pow 2 hsmall) n
    have hupper : 2 * (n * unitsPerOne) ≤ 2 * units ordinal + 2 ^ shiftOf ordinal := by
      exact_mod_cast h.units_upper hfinite
    have hlower : 2 * units ordinal ≤ 2 * (n * unitsPerOne) + 2 ^ shiftOf ordinal := by
      exact_mod_cast h.units_lower (Nat.cast_nonneg n)
    -- two multiples of a step that are at most half a step apart
    obtain rfl : point = count := by
      rw [hpoint, hcount] at hupper hlower
      have hstep := Nat.two_pow_pos (shiftOf ordinal)
      generalize 2 ^ shiftOf ordinal = step at *
      have hle : step * (2 * point) ≤ step * (2 * count + 1) := by linarith
      have hge : step * (2 * count) ≤ step * (2 * point + 1) := by linarith
      have hle' := Nat.le_of_mul_le_mul_left hle hstep
      have hge' := Nat.le_of_mul_le_mul_left hge hstep
      omega
    refine ⟨n, ?_⟩
    rw [magnitude, div_eq_iff hunit.ne', hcount, ← hpoint, Nat.cast_mul]

/-! ## Rounding finds the nearest ordinal -/

/-- A quotient of units and a midpoint compare as natural numbers. -/
theorem twice_quotient_le_iff (num : Nat) {den : Nat} (hden : 0 < den) (a b : Nat) :
    2 * ((num : ℚ) / den / unitsPerOne) ≤ magnitude a + magnitude b ↔
      2 * num ≤ (units a + units b) * den := by
  have hden' : (0 : ℚ) < den := Nat.cast_pos.mpr hden
  rw [magnitude, magnitude, ← add_div, ← mul_div_assoc, div_le_div_iff_of_pos_right unitsPerOne_pos,
    ← mul_div_assoc, div_le_iff₀ hden']
  exact_mod_cast Iff.rfl

/-- A midpoint and a quotient of units compare as natural numbers. -/
theorem le_twice_quotient_iff (num : Nat) {den : Nat} (hden : 0 < den) (a b : Nat) :
    magnitude a + magnitude b ≤ 2 * ((num : ℚ) / den / unitsPerOne) ↔
      (units a + units b) * den ≤ 2 * num := by
  have hden' : (0 : ℚ) < den := Nat.cast_pos.mpr hden
  rw [magnitude, magnitude, ← add_div, ← mul_div_assoc, div_le_div_iff_of_pos_right unitsPerOne_pos,
    ← mul_div_assoc, le_div_iff₀ hden']
  exact_mod_cast Iff.rfl

/-- The quotient keeps fifty-three leading bits: what is rounded is below twice the weight of the
leading bit, and at least that weight if a bit is dropped. -/
theorem shift_bounds (num : Nat) {den : Nat} (hden : 0 < den) :
    num < 2 * leadingWeight * (den * 2 ^ ((num / den).log2 - 52)) ∧
    ((num / den).log2 - 52 = 0 ∨ leadingWeight * (den * 2 ^ ((num / den).log2 - 52)) ≤ num) := by
  have hweight : leadingWeight = 2 ^ 52 := by decide
  have hquotient := Nat.lt_mul_div_succ num hden
  have hupper : num / den < 2 ^ ((num / den).log2 + 1) := Nat.lt_log2_self
  constructor
  · have hpow : 2 ^ ((num / den).log2 + 1) ≤ 2 * leadingWeight * 2 ^ ((num / den).log2 - 52) := by
      rw [hweight, ← pow_succ', ← pow_add]
      exact Nat.pow_le_pow_right (by decide) (by omega)
    calc num < den * (num / den + 1) := hquotient
      _ ≤ den * (2 * leadingWeight * 2 ^ ((num / den).log2 - 52)) :=
          Nat.mul_le_mul_left _ (hupper.trans_le hpow)
      _ = 2 * leadingWeight * (den * 2 ^ ((num / den).log2 - 52)) := by ring
  · refine or_iff_not_imp_left.mpr fun hshift => ?_
    have hne : num / den ≠ 0 := by
      intro hzero
      rw [hzero] at hshift
      exact hshift (by decide)
    have hlower : leadingWeight * 2 ^ ((num / den).log2 - 52) ≤ num / den := by
      rw [hweight, ← pow_add]
      exact (Nat.pow_le_pow_right (by decide) (by omega)).trans (Nat.log2_self_le hne)
    calc leadingWeight * (den * 2 ^ ((num / den).log2 - 52))
        = leadingWeight * 2 ^ ((num / den).log2 - 52) * den := by ring
      _ ≤ num / den * den := Nat.mul_le_mul_right _ hlower
      _ ≤ num := Nat.div_mul_le_self num den

section RoundedSignificand

variable {num den shift : Nat}

/-- The rounded significand has its leading bit if a bit is dropped, and is at most carried into the
next power of two. -/
theorem significand_bounds (hden : 0 < den) (hlt : num < 2 * leadingWeight * (den * 2 ^ shift))
    (hnormal : shift = 0 ∨ leadingWeight * (den * 2 ^ shift) ≤ num) :
    (shift = 0 ∨ leadingWeight ≤ roundQuotient num (den * 2 ^ shift)) ∧
    roundQuotient num (den * 2 ^ shift) ≤ 2 * leadingWeight := by
  have hpos : 0 < den * 2 ^ shift := Nat.mul_pos hden (Nat.two_pow_pos shift)
  obtain ⟨hupper, hlower, -⟩ := roundQuotient_bounds num hpos
  generalize den * 2 ^ shift = step at *
  generalize roundQuotient num step = significand at *
  refine ⟨hnormal.imp_right fun hle => ?_, ?_⟩
  · have hsteps : 2 * leadingWeight * step ≤ (2 * significand + 1) * step := by linarith
    have hbit := Nat.le_of_mul_le_mul_right hsteps hpos
    omega
  · have hsteps : 2 * significand * step < (4 * leadingWeight + 1) * step := by nlinarith
    have hcarry := Nat.lt_of_mul_lt_mul_right hsteps
    omega

/-- The quotient is not past the midpoint to the next magnitude, and the significand is even at the
midpoint. -/
theorem le_midpoint_above (hden : 0 < den) (hlt : num < 2 * leadingWeight * (den * 2 ^ shift))
    (hnormal : shift = 0 ∨ leadingWeight * (den * 2 ^ shift) ≤ num) {ordinal : Nat}
    (hordinal : ordinal = shift * leadingWeight + roundQuotient num (den * 2 ^ shift)) :
    2 * num ≤ (units ordinal + units (ordinal + 1)) * den ∧
    (2 * num = (units ordinal + units (ordinal + 1)) * den →
      roundQuotient num (den * 2 ^ shift) % 2 = 0) := by
  obtain ⟨hbit, hle⟩ := significand_bounds hden hlt hnormal
  obtain ⟨hupper, -, heven⟩ := roundQuotient_bounds num (Nat.mul_pos hden (Nat.two_pow_pos shift))
  generalize roundQuotient num (den * 2 ^ shift) = significand at *
  have hunits : units ordinal = significand * 2 ^ shift := by rw [hordinal, units_shift hbit hle]
  have hshift : shift ≤ shiftOf ordinal := by
    rw [hordinal]
    unfold shiftOf leadingWeight at *
    omega
  have hnext : significand * 2 ^ shift + 2 ^ shift ≤ units (ordinal + 1) := by
    rw [units_succ, hunits]
    exact Nat.add_le_add_left (Nat.pow_le_pow_right (by decide) hshift) _
  have hmid : (2 * significand + 1) * (den * 2 ^ shift)
      ≤ (units ordinal + units (ordinal + 1)) * den := by
    rw [hunits]
    nlinarith
  exact ⟨hupper.trans hmid,
    fun htie => heven (Or.inl (Nat.le_antisymm hupper (hmid.trans htie.ge)))⟩

/-- The quotient is not before the midpoint to the previous magnitude, and the significand is even
at the midpoint. -/
theorem midpoint_below_le (hden : 0 < den) (hlt : num < 2 * leadingWeight * (den * 2 ^ shift))
    (hnormal : shift = 0 ∨ leadingWeight * (den * 2 ^ shift) ≤ num) {below : Nat}
    (hordinal : below + 1 = shift * leadingWeight + roundQuotient num (den * 2 ^ shift)) :
    (units below + units (below + 1)) * den ≤ 2 * num ∧
    ((units below + units (below + 1)) * den = 2 * num →
      roundQuotient num (den * 2 ^ shift) % 2 = 0) := by
  obtain ⟨hbit, hle⟩ := significand_bounds hden hlt hnormal
  obtain ⟨-, hlower, heven⟩ := roundQuotient_bounds num (Nat.mul_pos hden (Nat.two_pow_pos shift))
  generalize roundQuotient num (den * 2 ^ shift) = significand at *
  have hunits : units (below + 1) = significand * 2 ^ shift := by
    rw [hordinal, units_shift hbit hle]
  by_cases hedge : shift = 0 ∨ leadingWeight < significand
  · -- the previous significand has the same shift
    have hpos : 0 < significand := by
      unfold leadingWeight at hordinal hedge
      omega
    obtain ⟨previous, rfl⟩ : ∃ previous, significand = previous + 1 := ⟨significand - 1, by omega⟩
    have hprevious : units below = previous * 2 ^ shift := by
      have hbelow : below = shift * leadingWeight + previous := by omega
      rw [hbelow, units_shift (hedge.imp_right Nat.le_of_lt_succ) (by omega)]
    have hmid : (units below + units (below + 1)) * den + den * 2 ^ shift
        = 2 * (previous + 1) * (den * 2 ^ shift) := by
      rw [hunits, hprevious]
      ring
    refine ⟨by omega, fun htie => heven (Or.inr ?_)⟩
    rw [← hmid, htie]
  · -- the quotient starts with the leading bit alone, and is not below it
    have hstart : units (below + 1) * den ≤ num := by
      obtain ⟨hshift, hbit'⟩ := not_or.mp hedge
      have hsignificand : significand = leadingWeight := by omega
      rw [hunits, hsignificand, Nat.mul_assoc, Nat.mul_comm (2 ^ shift)]
      exact hnormal.resolve_left hshift
    have hstep : units below * den < units (below + 1) * den :=
      Nat.mul_lt_mul_of_pos_right (units_strictMono (Nat.lt_succ_self below)) hden
    rw [Nat.add_mul]
    exact ⟨by omega, fun htie => by omega⟩

end RoundedSignificand

/-- **Rounding finds the nearest ordinal.** -/
theorem isNearest_nearest (num : Nat) {den : Nat} (hden : 0 < den) :
    IsNearest ((num : ℚ) / den / unitsPerOne) (nearest num den) := by
  obtain ⟨hlt, hnormal⟩ := shift_bounds num hden
  have habove := le_midpoint_above hden hlt hnormal rfl
  have hbelow := @midpoint_below_le _ _ _ hden hlt hnormal
  simp only [nearest, Nat.pow_eq]
  generalize (num / den).log2 - 52 = shift at *
  have hparity : (shift * leadingWeight + roundQuotient num (den * 2 ^ shift)) % 2
      = roundQuotient num (den * 2 ^ shift) % 2 := by
    unfold leadingWeight
    omega
  generalize roundQuotient num (den * 2 ^ shift) = significand at *
  generalize hordinal : shift * leadingWeight + significand = ordinal at *
  by_cases hle : ordinal ≤ infinityOrdinal
  · rw [min_eq_left hle]
    refine isNearest_of_neighbours hle
      (fun _ => (twice_quotient_le_iff num hden _ _).mpr habove.1) ?_ ?_
    · rintro below rfl
      exact (le_twice_quotient_iff num hden _ _).mpr (hbelow rfl).1
    · rintro (⟨-, htie⟩ | ⟨below, rfl, htie⟩)
      · rw [hparity]
        exact habove.2 (Nat.le_antisymm habove.1 ((le_twice_quotient_iff num hden _ _).mp htie.ge))
      · rw [hparity]
        exact (hbelow rfl).2
          (Nat.le_antisymm (hbelow rfl).1 ((twice_quotient_le_iff num hden _ _).mp htie.ge))
  · -- both neighbours of the midpoint below are at least as large as the magnitude of infinity
    rw [min_eq_right (Nat.le_of_not_le hle)]
    obtain ⟨below, rfl⟩ : ∃ below, ordinal = below + 1 := ⟨ordinal - 1, by omega⟩
    have hmid := (le_twice_quotient_iff num hden _ _).mpr (hbelow rfl).1
    have hfirst := magnitude_strictMono.monotone (show infinityOrdinal ≤ below by omega)
    have hsecond := magnitude_strictMono.monotone (show infinityOrdinal ≤ below + 1 by omega)
    exact isNearest_infinity (by linarith)

end Binary64

end StackMachine
