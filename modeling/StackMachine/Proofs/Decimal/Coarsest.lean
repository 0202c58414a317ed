import Mathlib.Data.Nat.Cast.Order.Field
import StackMachine.Proofs.Decimal.Value

/-! # The coarsest grid

The decimals with one exponent form a grid, and the grids get coarser as the exponent grows. A grid
admits an ordinal if one of its points rounds to it; the search for the shortest decimal looks for
the coarsest grid that does. On one grid only the two neighbours of the exact value matter, also
where the interval of what rounds to the ordinal is not symmetric around it, and because coarser
grids admit less, the search may halve the distance to a grid that is known to be too coarse.

* **`Decimal.Admits`** and **`Decimal.Admits.of_le`** — a grid has a point that rounds to an
  ordinal, and then so has every finer one.
* **`Decimal.pick?_cases`** — the choice on one grid is the nearest point that rounds to the
  ordinal, if there is one.
* **`Decimal.Reaches`** — the invariant of the search; `Decimal.Reaches.climb` keeps it for one
  stride, and `Decimal.Reaches.foldl_climb` for all of them.
* **`Decimal.isCoarsest_shortest`** — the shortest decimal is the best point of the coarsest grid
  that admits the ordinal. -/

namespace StackMachine

open Binary64

namespace Decimal

/-- A **grid admits** an ordinal if one of its multiples of a power of ten rounds to it. -/
def Admits (ordinal : Nat) (exponent : Int) : Prop :=
  ∃ digits, (Decimal.mk digits exponent).ordinal = ordinal

/-- A decimal is the **best** one on a grid for an ordinal: it rounds to the ordinal, and no other
multiple that does is nearer to the exact value. -/
structure IsBest (ordinal : Nat) (exponent : Int) (d : Decimal) : Prop where
  /-- The decimal lies on the grid. -/
  exponent_eq : d.exponent = exponent
  /-- It rounds to the ordinal. -/
  ordinal_eq : d.ordinal = ordinal
  /-- No multiple that rounds to the ordinal is nearer. -/
  closest : ∀ digits, (Decimal.mk digits exponent).ordinal = ordinal →
    |magnitude ordinal - d.value| ≤ |magnitude ordinal - (Decimal.mk digits exponent).value|

/-- A decimal is the best one on the **coarsest** grid that admits an ordinal. -/
structure IsCoarsest (ordinal : Nat) (d : Decimal) : Prop where
  /-- The decimal is the best one on its grid. -/
  best : IsBest ordinal d.exponent d
  /-- The next grid does not admit the ordinal. -/
  beyond : ¬ Admits ordinal (d.exponent + 1)

/-- More digits on one grid make a larger decimal. -/
theorem value_mono {digits digits' : Nat} (h : digits ≤ digits') (exponent : Int) :
    (Decimal.mk digits exponent).value ≤ (Decimal.mk digits' exponent).value :=
  mul_le_mul_of_nonneg_right (Nat.cast_le.mpr h) (by positivity)

/-- The next point of a grid is a power of ten away. -/
theorem value_succ (digits : Nat) (exponent : Int) :
    (Decimal.mk (digits + 1) exponent).value
      = (Decimal.mk digits exponent).value + 10 ^ exponent := by
  unfold value
  push_cast
  ring

/-- A multiple of a power of ten is one of the next smaller power. -/
theorem value_mul_ten (digits : Nat) (exponent : Int) :
    (Decimal.mk (digits * 10) exponent).value = (Decimal.mk digits (exponent + 1)).value := by
  unfold value
  dsimp only
  rw [zpow_add_one₀ (by norm_num)]
  push_cast
  ring

/-- **Coarser grids admit less.** -/
theorem Admits.of_le {ordinal : Nat} {exponent exponent' : Int} (h : Admits ordinal exponent')
    (hle : exponent ≤ exponent') :
    Admits ordinal exponent := by
  induction exponent, hle using Int.leInductionDown with
  | base => exact h
  | pred exponent _ ih =>
    obtain ⟨digits, hdigits⟩ := ih
    refine ⟨digits * 10, ?_⟩
    rw [ordinal_congr (value_mul_ten digits (exponent - 1)), Int.sub_add_cancel]
    exact hdigits

/-! ## One grid -/

/-- The exact value of an ordinal in steps of a grid is a quotient of natural numbers. -/
theorem magnitude_eq_quotient (ordinal : Nat) (exponent : Int) :
    magnitude ordinal = ((units ordinal * Nat.pow 10 (-exponent).toNat : Nat) : ℚ)
      / (unitsPerOne * Nat.pow 10 exponent.toNat : Nat) * 10 ^ exponent := by
  have hunit := unitsPerOne_pos.ne'
  unfold magnitude
  cases exponent with
  | ofNat e =>
    have hneg : (-Int.ofNat e).toNat = 0 := by simp
    have hpos : (Int.ofNat e).toNat = e := rfl
    rw [hneg, hpos, Int.ofNat_eq_natCast, zpow_natCast, Nat.pow_eq, Nat.pow_eq]
    push_cast
    field_simp
  | negSucc e =>
    have hneg : (-Int.negSucc e).toNat = e + 1 := rfl
    have hpos : (Int.negSucc e).toNat = 0 := rfl
    rw [hneg, hpos, zpow_negSucc, Nat.pow_eq, Nat.pow_eq]
    push_cast
    field_simp

/-- **The exact value lies in one cell of a grid**: past the lower corner by less than a step, and
by at least half a step exactly if twice the remainder reaches the divisor. -/
theorem exists_part (ordinal : Nat) (exponent : Int) {num den : Nat}
    (hnum : num = units ordinal * Nat.pow 10 (-exponent).toNat)
    (hden : den = unitsPerOne * Nat.pow 10 exponent.toNat) :
    ∃ part : ℚ, 0 ≤ part ∧ part < 1 ∧ (den ≤ 2 * (num % den) ↔ 1 ≤ 2 * part) ∧
      magnitude ordinal = (Decimal.mk (num / den) exponent).value + part * 10 ^ exponent := by
  have hpos : 0 < den := by
    rw [hden]
    exact Nat.mul_pos (by exact_mod_cast unitsPerOne_pos) (Nat.pow_pos (by decide))
  have hpos' : (0 : ℚ) < den := Nat.cast_pos.mpr hpos
  have hrest : ((num % den : Nat) : ℚ) < den := Nat.cast_lt.mpr (Nat.mod_lt num hpos)
  have hsplit : (num : ℚ) = (num / den : Nat) * den + (num % den : Nat) := by
    exact_mod_cast (Nat.div_add_mod' num den).symm
  refine ⟨(num % den : Nat) / den, by positivity, (div_lt_one hpos').mpr hrest, ?_, ?_⟩
  · rw [← mul_div_assoc, le_div_iff₀ hpos', one_mul]
    exact_mod_cast Iff.rfl
  · rw [magnitude_eq_quotient ordinal exponent, ← hnum, ← hden, hsplit, value]
    field_simp

/-- Of the points of a grid that round to an ordinal, one of the neighbours of the exact value is
nearest. -/
theorem neighbour_of_ordinal_eq {ordinal below digits : Nat} {exponent : Int}
    (hle : ordinal ≤ infinityOrdinal)
    (hbelow : (Decimal.mk below exponent).value ≤ magnitude ordinal)
    (habove : magnitude ordinal ≤ (Decimal.mk (below + 1) exponent).value)
    (h : (Decimal.mk digits exponent).ordinal = ordinal) :
    ∃ neighbour, (neighbour = below ∨ neighbour = below + 1) ∧
      (Decimal.mk neighbour exponent).ordinal = ordinal ∧
      |magnitude ordinal - (Decimal.mk neighbour exponent).value|
        ≤ |magnitude ordinal - (Decimal.mk digits exponent).value| := by
  -- the corner on the side of the given point lies between that point and the exact value
  by_cases hside : digits ≤ below
  · have hmono := value_mono hside exponent
    refine ⟨below, Or.inl rfl,
      Nat.le_antisymm (ordinal_le_of_value_le hle hbelow) (h ▸ ordinal_mono hmono), ?_⟩
    rw [abs_of_nonneg (sub_nonneg.mpr hbelow), abs_of_nonneg (sub_nonneg.mpr (hmono.trans hbelow))]
    linarith
  · have hmono := value_mono (Nat.lt_of_not_le hside) exponent
    refine ⟨below + 1, Or.inr rfl,
      Nat.le_antisymm (h ▸ ordinal_mono hmono) (le_ordinal_of_le_value hle habove), ?_⟩
    rw [abs_of_nonpos (sub_nonpos.mpr habove), abs_of_nonpos (sub_nonpos.mpr (habove.trans hmono))]
    linarith

/-- Choosing the nearer one of two points that rounds to the ordinal gives the best point of a grid,
if one of the two is nearest among the points that do. -/
theorem choice_cases {ordinal : Nat} {exponent : Int} (nearer farther : Nat)
    (hnearer : |magnitude ordinal - (Decimal.mk nearer exponent).value|
      ≤ |magnitude ordinal - (Decimal.mk farther exponent).value|)
    (hneighbour : ∀ digits, (Decimal.mk digits exponent).ordinal = ordinal →
      ∃ neighbour, (neighbour = nearer ∨ neighbour = farther) ∧
        (Decimal.mk neighbour exponent).ordinal = ordinal ∧
        |magnitude ordinal - (Decimal.mk neighbour exponent).value|
          ≤ |magnitude ordinal - (Decimal.mk digits exponent).value|)
    {choice : Option Decimal}
    (hchoice : choice
      = if (Decimal.mk nearer exponent).ordinal = ordinal then some ⟨nearer, exponent⟩
        else if (Decimal.mk farther exponent).ordinal = ordinal then some ⟨farther, exponent⟩
        else none) :
    (∃ d, choice = some d ∧ IsBest ordinal exponent d) ∨
      (choice = none ∧ ¬ Admits ordinal exponent) := by
  subst hchoice
  split_ifs with hfirst hsecond
  · refine Or.inl ⟨_, rfl, rfl, hfirst, fun digits hdigits => ?_⟩
    obtain ⟨neighbour, rfl | rfl, -, hle⟩ := hneighbour digits hdigits
    · exact hle
    · exact hnearer.trans hle
  · refine Or.inl ⟨_, rfl, rfl, hsecond, fun digits hdigits => ?_⟩
    obtain ⟨neighbour, rfl | rfl, hrounds, hle⟩ := hneighbour digits hdigits
    · exact absurd hrounds hfirst
    · exact hle
  · refine Or.inr ⟨rfl, fun ⟨digits, hdigits⟩ => ?_⟩
    obtain ⟨neighbour, rfl | rfl, hrounds, -⟩ := hneighbour digits hdigits
    · exact hfirst hrounds
    · exact hsecond hrounds

/-- **The choice on one grid** is the best point, and there is none only if no point rounds to the
ordinal. -/
theorem pick?_cases {ordinal : Nat} (hle : ordinal ≤ infinityOrdinal) (exponent : Int) :
    (∃ d, pick? ordinal exponent = some d ∧ IsBest ordinal exponent d) ∨
    (pick? ordinal exponent = none ∧ ¬ Admits ordinal exponent) := by
  obtain ⟨part, hnonneg, hlt, hhalf, hmagnitude⟩ := exists_part ordinal exponent rfl rfl
  have hstep : (0 : ℚ) < 10 ^ exponent := by positivity
  unfold pick?
  dsimp only
  generalize units ordinal * Nat.pow 10 (-exponent).toNat = num at *
  generalize unitsPerOne * Nat.pow 10 exponent.toNat = den at *
  generalize num / den = below at *
  have habove := value_succ below exponent
  have hlower : (Decimal.mk below exponent).value ≤ magnitude ordinal := by nlinarith
  have hupper : magnitude ordinal ≤ (Decimal.mk (below + 1) exponent).value := by nlinarith
  have hneighbour :=
    fun digits => @neighbour_of_ordinal_eq ordinal below digits exponent hle hlower hupper
  have hdistance : |magnitude ordinal - (Decimal.mk below exponent).value|
      = part * 10 ^ exponent := by
    rw [abs_of_nonneg (by linarith)]
    linarith
  have hdistance' : |magnitude ordinal - (Decimal.mk (below + 1) exponent).value|
      = (1 - part) * 10 ^ exponent := by
    rw [abs_of_nonpos (by linarith)]
    linarith
  by_cases hupperHalf : den ≤ 2 * (num % den)
  · have hpart := hhalf.mp hupperHalf
    rw [decide_eq_true hupperHalf]
    refine choice_cases (below + 1) below ?_ (fun digits hdigits => ?_) rfl
    · rw [hdistance, hdistance']
      nlinarith
    · obtain ⟨neighbour, hside, hrest⟩ := hneighbour digits hdigits
      exact ⟨neighbour, hside.symm, hrest⟩
  · have hpart := mt hhalf.mpr hupperHalf
    rw [decide_eq_false hupperHalf]
    refine choice_cases below (below + 1) ?_ hneighbour rfl
    rw [hdistance, hdistance']
    nlinarith

/-- A choice on the grid of a level is the best one. -/
theorem isBest_of_pickAt? {ordinal level : Nat} {d : Decimal} (hle : ordinal ≤ infinityOrdinal)
    (h : pickAt? ordinal level = some d) : IsBest ordinal ((level : Int) - 1074) d := by
  obtain ⟨d', hpick, hbest⟩ | ⟨hpick, -⟩ := pick?_cases hle ((level : Int) - 1074)
  · obtain rfl : d = d' := Option.some.inj (h.symm.trans hpick)
    exact hbest
  · cases h.symm.trans hpick

/-- Without a choice on the grid of a level, no multiple rounds to the ordinal. -/
theorem not_admits_of_pickAt? {ordinal level : Nat} (hle : ordinal ≤ infinityOrdinal)
    (h : pickAt? ordinal level = none) : ¬ Admits ordinal ((level : Int) - 1074) := by
  obtain ⟨d', hpick, -⟩ | ⟨-, hnone⟩ := pick?_cases hle ((level : Int) - 1074)
  · cases h.symm.trans hpick
  · exact hnone

/-! ## The search -/

/-- The search has **reached** a level with its best decimal, and no grid a width further up admits
the ordinal. -/
structure Reaches (ordinal width : Nat) (reached : Nat × Decimal) : Prop where
  /-- The decimal is the best one on the grid of the level. -/
  best : IsBest ordinal ((reached.1 : Int) - 1074) reached.2
  /-- Levels a width further up are too coarse. -/
  beyond : ¬ Admits ordinal (((reached.1 + width : Nat) : Int) - 1074)

/-- **A step of the search halves the width.** -/
theorem Reaches.climb {ordinal stride : Nat} {reached : Nat × Decimal}
    (hle : ordinal ≤ infinityOrdinal) (h : Reaches ordinal (2 * stride) reached) :
    Reaches ordinal stride (climb ordinal reached stride) := by
  unfold Decimal.climb
  cases hpick : pickAt? ordinal (reached.1 + stride) with
  | some d =>
    refine ⟨isBest_of_pickAt? hle hpick, ?_⟩
    -- half of the width is behind the new level, the other half still ahead
    have hbeyond := h.beyond
    rwa [Nat.two_mul, ← Nat.add_assoc] at hbeyond
  | none => exact ⟨h.best, not_admits_of_pickAt? hle hpick⟩

/-- Strides that start at half a width and go down to one by halves. -/
def Halves : Nat → List Nat → Prop
  | width, [] => width = 1
  | width, stride :: strides => width = 2 * stride ∧ Halves stride strides

instance : (width : Nat) → (strides : List Nat) → Decidable (Halves width strides)
  | width, [] => inferInstanceAs (Decidable (width = 1))
  | width, stride :: strides =>
    have := instDecidableHalves stride strides
    inferInstanceAs (Decidable (width = 2 * stride ∧ Halves stride strides))

/-- **The search ends on the coarsest grid** that admits the ordinal. -/
theorem Reaches.foldl_climb {ordinal : Nat} (hle : ordinal ≤ infinityOrdinal) {strides : List Nat} :
    ∀ {width : Nat} {reached : Nat × Decimal}, Reaches ordinal width reached →
      Halves width strides → Reaches ordinal 1 (strides.foldl (Decimal.climb ordinal) reached) := by
  induction strides with
  | nil =>
    intro width reached h hhalves
    exact hhalves ▸ h
  | cons stride strides ih =>
    intro width reached h hhalves
    obtain ⟨rfl, hhalves⟩ := hhalves
    exact ih (h.climb hle) hhalves

/-- The decimal found there is the best one. -/
theorem Reaches.exists_coarsest {ordinal width level : Nat} {best : Decimal} {strides : List Nat}
    (h : Reaches ordinal width (level, best)) (hle : ordinal ≤ infinityOrdinal)
    (hhalves : Halves width strides) :
    ∃ level', Reaches ordinal 1 (level', coarsest ordinal level best strides) := by
  have hreached := h.foldl_climb hle hhalves
  unfold coarsest
  generalize strides.foldl (Decimal.climb ordinal) (level, best) = reached at *
  exact ⟨reached.1, hreached⟩

/-- A decimal that rounds to a finite number other than zero is at most twice as large. -/
theorem value_le_two_mul {d : Decimal} (hpos : 0 < d.ordinal)
    (hfinite : d.ordinal < infinityOrdinal) :
    d.value ≤ 2 * magnitude d.ordinal := by
  have hstep : units (d.ordinal + 1) ≤ 2 * units d.ordinal := by
    have hdvd := Nat.le_of_dvd (units_pos hpos) (dvd_units d.ordinal)
    rw [units_succ]
    omega
  have hnext : magnitude (d.ordinal + 1) ≤ 2 * magnitude d.ordinal := by
    unfold magnitude
    rw [← mul_div_assoc, div_le_div_iff_of_pos_right unitsPerOne_pos]
    exact_mod_cast hstep
  have hupper := d.isNearest_ordinal.upper (Nat.lt_succ_self _) hfinite
  have hmono := magnitude_strictMono hpos
  rw [magnitude_zero] at hmono
  linarith

/-- A grid that admits a finite ordinal other than zero has a step of at most twice its value. -/
theorem Admits.pow_le {ordinal : Nat} {exponent : Int} (hpos : 0 < ordinal)
    (hfinite : ordinal < infinityOrdinal) (h : Admits ordinal exponent) :
    (10 : ℚ) ^ exponent ≤ 2 * magnitude ordinal := by
  obtain ⟨digits, rfl⟩ := h
  rw [← value_one]
  exact (value_mono (digits_pos hpos) exponent).trans (value_le_two_mul hpos hfinite)

/-- A bound on the bits of a number is one on its digits, given a power of two up to a power of
ten. -/
theorem two_mul_lt_pow {n power bits digits : Nat} (hbits : bits ≠ 0)
    (hratio : 2 ^ bits ≤ 10 ^ digits) (h : (n.log2 + 2) * digits ≤ bits * power) :
    2 * n < 10 ^ power := by
  have hlog : 2 * n < 2 ^ (n.log2 + 2) := by
    rw [pow_succ']
    exact Nat.mul_lt_mul_of_pos_left Nat.lt_log2_self (by decide)
  refine hlog.trans_le ((Nat.pow_le_pow_iff_left hbits).mp ?_)
  calc (2 ^ (n.log2 + 2)) ^ bits
      = (2 ^ bits) ^ (n.log2 + 2) := by rw [← pow_mul, ← pow_mul, Nat.mul_comm]
    _ ≤ (10 ^ digits) ^ (n.log2 + 2) := Nat.pow_le_pow_left hratio _
    _ = 10 ^ ((n.log2 + 2) * digits) := by rw [← pow_mul, Nat.mul_comm]
    _ ≤ 10 ^ (bits * power) := Nat.pow_le_pow_right (by decide) h
    _ = (10 ^ power) ^ bits := by rw [← pow_mul, Nat.mul_comm]

/-- A magnitude is below a power of ten if its units are, with the units of one counted as a smaller
power of ten. -/
theorem two_mul_magnitude_lt {ordinal power : Nat} (scale : Nat) (hscale : 10 ^ scale ≤ unitsPerOne)
    (hunits : 2 * units ordinal < 10 ^ power) :
    2 * magnitude ordinal < 10 ^ ((power : Int) - scale) := by
  have hnat : 2 * units ordinal * 10 ^ scale < 10 ^ power * unitsPerOne :=
    Nat.mul_lt_mul_of_lt_of_le hunits hscale (by exact_mod_cast unitsPerOne_pos)
  rw [magnitude, zpow_sub₀ (by norm_num), zpow_natCast, zpow_natCast, ← mul_div_assoc,
    div_lt_div_iff₀ unitsPerOne_pos (by positivity)]
  exact_mod_cast hnat

/-- **The top level is too coarse.** -/
theorem not_admits_topLevel {ordinal : Nat} (hpos : 0 < ordinal)
    (hfinite : ordinal < infinityOrdinal) :
    ¬ Admits ordinal ((topLevel ordinal : Int) - 1074) := by
  intro h
  have hle := h.pow_le hpos hfinite
  have hlevel : ((units ordinal).log2 + 2) * 1234
      ≤ 4096 * (((units ordinal).log2 + 2) * 1234 / 4096 + 1) := by omega
  have hunits := two_mul_lt_pow (by decide) (by decide +kernel) hlevel
  have hlt := two_mul_magnitude_lt 323 (by decide +kernel) hunits
  have hexponent : (topLevel ordinal : Int) - 1074
      = ((((units ordinal).log2 + 2) * 1234 / 4096 + 1 : Nat) : Int) - (323 : Nat) := by
    unfold topLevel
    omega
  rw [hexponent] at hle
  exact absurd hlt (not_lt.mpr hle)

/-- There are thirty-two levels below the top. -/
theorem le_topLevel (ordinal : Nat) : 32 ≤ topLevel ordinal := by
  unfold topLevel
  omega

/-- The top level is within reach of strides from level zero. -/
theorem topLevel_le {ordinal : Nat} (hpos : 0 < ordinal) (hfinite : ordinal < infinityOrdinal) :
    topLevel ordinal ≤ 2048 := by
  have hlog : (units ordinal).log2 < 2098 := by
    by_cases hsmall : ordinal < leadingWeight
    · have hbits : ordinal.log2 < 52 := (Nat.log2_lt hpos.ne').mpr hsmall
      rw [units_of_lt hsmall]
      omega
    · rw [log2_units (Nat.not_lt.mp hsmall)]
      unfold infinityOrdinal leadingWeight at *
      omega
  unfold topLevel
  omega

/-- Units counted in a negative power of two are a decimal, because two times five is ten. -/
theorem value_units_mul_pow_five {scale : Nat} (hunit : unitsPerOne = Nat.pow 2 scale)
    (ordinal : Nat) :
    (Decimal.mk (units ordinal * Nat.pow 5 scale) (-(scale : Int))).value = magnitude ordinal := by
  have hten : (10 : ℚ) ^ scale = 5 ^ scale * 2 ^ scale := by
    rw [← mul_pow]
    norm_num
  rw [value, magnitude, hunit, zpow_neg, zpow_natCast, hten, Nat.pow_eq, Nat.pow_eq]
  push_cast
  field_simp

/-- The exact value is the best decimal of level zero. -/
theorem isBest_exact {ordinal : Nat} (hpos : 0 < ordinal) (hle : ordinal ≤ infinityOrdinal) :
    IsBest ordinal (((0 : Nat) : Int) - 1074) (exact ordinal) := by
  have hunit : unitsPerOne = Nat.pow 2 1074 := by decide +kernel
  have hvalue : (exact ordinal).value = magnitude ordinal := by
    have hunits := value_units_mul_pow_five hunit ordinal
    unfold exact
    exact hunits
  refine ⟨rfl, ordinal_exact hpos hle, fun digits _ => ?_⟩
  rw [hvalue, sub_self, abs_zero]
  exact abs_nonneg _

/-- The search for the shortest decimal ends one level below those that are too coarse. -/
theorem exists_reaches_shortest {ordinal : Nat} (hpos : 0 < ordinal)
    (hfinite : ordinal < infinityOrdinal) :
    ∃ level, Reaches ordinal 1 (level, shortest ordinal) := by
  have htop := not_admits_topLevel hpos hfinite
  have hexact := isBest_exact hpos hfinite.le
  have hlevel : 32 ≤ topLevel ordinal ∧ topLevel ordinal ≤ 2048 :=
    ⟨le_topLevel ordinal, topLevel_le hpos hfinite⟩
  unfold shortest
  generalize exact ordinal = start at *
  generalize topLevel ordinal = top at *
  dsimp only
  -- the search starts a little below the top, or with the exact value where nothing is found there
  cases hpick : pickAt? ordinal (top - 32) with
  | some d =>
    have hstart : Reaches ordinal 32 (top - 32, d) := by
      refine ⟨isBest_of_pickAt? hfinite.le hpick, ?_⟩
      rwa [Nat.sub_add_cancel hlevel.1]
    exact hstart.exists_coarsest hfinite.le (by decide)
  | none =>
    have hstart : Reaches ordinal 2048 (0, start) := by
      refine ⟨hexact, fun h => htop (h.of_le ?_)⟩
      omega
    exact hstart.exists_coarsest hfinite.le (by decide)

/-- **The shortest decimal is the best one on the coarsest grid that admits the ordinal.** -/
theorem isCoarsest_shortest {ordinal : Nat} (hpos : 0 < ordinal)
    (hfinite : ordinal < infinityOrdinal) :
    IsCoarsest ordinal (shortest ordinal) := by
  obtain ⟨level, hbest, hbeyond⟩ := exists_reaches_shortest hpos hfinite
  generalize shortest ordinal = d at *
  have hexponent := hbest.exponent_eq
  have hnext : ((level + 1 : Nat) : Int) - 1074 = d.exponent + 1 := by
    rw [hexponent]
    push_cast
    ring
  exact ⟨hexponent ▸ hbest, hnext ▸ hbeyond⟩

end Decimal

end StackMachine
