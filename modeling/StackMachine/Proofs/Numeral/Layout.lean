import StackMachine.Proofs.Numeral.SignificantDigits

/-! # The layout of printed numbers

Numbers between two bounds are printed in the positional layout, with a point exactly if they are
not integers, and all others in the scientific layout, whose exponent is positive or negative
depending on the bound that is passed. No layout has superfluous zeros. The digits that are laid out
are those of the shortest decimal, so they neither start nor end with a zero; that an integer has no
fraction digits, and any other number has some, is a property of the shortest decimal as well.

* **`Numeral.IsWhole`**, **`Numeral.IsMixed`** and **`Numeral.IsScientific`** — the layouts.
* **`Numeral.startsNonzero_toDigits`** and **`Numeral.endsNonzero_toDigits`** — the digits of a
  number and its zeros.
* **`Numeral.power_pos`** and **`Numeral.power_neg`** — the sign of the exponent.
* **`Numeral.printOrdinal_layout`** and **`Numeral.print_layout`** — the layout of a magnitude and
  of a number. -/

namespace StackMachine

namespace Numeral

/-! ## Layouts -/

/-- Digits that **start** with one other than zero. -/
structure StartsNonzero (text : List Char) : Prop where
  /-- There are only digits. -/
  digits : AllDigits text
  /-- The first one is not zero. -/
  head : ∃ c ∈ text.head?, c ≠ '0'

/-- Digits that **end** with one other than zero. -/
structure EndsNonzero (text : List Char) : Prop where
  /-- There are only digits. -/
  digits : AllDigits text
  /-- The last one is not zero. -/
  last : ∃ c ∈ text.getLast?, c ≠ '0'

/-- A **whole number** in digits, without superfluous zeros. -/
def IsWhole (text : List Char) : Prop := text = ['0'] ∨ StartsNonzero text

/-- A whole number with a **fraction**, without superfluous zeros at either end. -/
inductive IsMixed : List Char → Prop where
  /-- A whole number, a point and the digits of the fraction. -/
  | point {whole fraction : List Char} (hwhole : IsWhole whole) (hfraction : EndsNonzero fraction) :
      IsMixed (whole ++ '.' :: fraction)

/-- The **scientific** layout: one digit before the point and an exponent with a sign, without
superfluous zeros. -/
inductive IsScientific (sign : Char) : List Char → Prop where
  /-- A single digit. -/
  | single {first : Char} {power : List Char} (hfirst : StartsNonzero [first])
      (hpower : StartsNonzero power) :
      IsScientific sign (first :: 'e' :: sign :: power)
  /-- A digit before the point and others behind it. -/
  | point {first : Char} {fraction power : List Char} (hfirst : StartsNonzero [first])
      (hfraction : EndsNonzero fraction) (hpower : StartsNonzero power) :
      IsScientific sign (first :: '.' :: (fraction ++ 'e' :: sign :: power))

/-! ## The digits of a number -/

/-- The digits of a number are digits. -/
theorem allDigits_toDigits (n : Nat) : AllDigits (Nat.toDigits 10 n) :=
  fun _ hc => Nat.isDigit_of_mem_toDigits (by decide) le_rfl hc

/-- **The digits of a positive number do not start with a zero.** -/
theorem startsNonzero_toDigits {n : Nat} (h : 0 < n) : StartsNonzero (Nat.toDigits 10 n) := by
  refine ⟨allDigits_toDigits n, ?_⟩
  induction n using Nat.strongRecOn with
  | ind n ih =>
    obtain hlt | hle := Nat.lt_or_ge n 10
    · rw [Nat.toDigits_of_lt_base hlt]
      exact ⟨n.digitChar, rfl, mt Nat.digitChar_eq_zero.mp h.ne'⟩
    · obtain ⟨c, hc, hne⟩ :=
        ih (n / 10) (Nat.div_lt_self h (by decide)) (Nat.div_pos hle (by decide))
      rw [Nat.toDigits_of_base_le (by decide) hle, List.head?_append, Option.mem_def.mp hc]
      exact ⟨c, rfl, hne⟩

/-- **The digits of a number end with a zero only if ten divides it.** -/
theorem endsNonzero_toDigits {n : Nat} (h : n % 10 ≠ 0) : EndsNonzero (Nat.toDigits 10 n) := by
  refine ⟨allDigits_toDigits n, (n % 10).digitChar, ?_, mt Nat.digitChar_eq_zero.mp h⟩
  obtain hlt | hle := Nat.lt_or_ge n 10
  · rw [Nat.toDigits_of_lt_base hlt, Nat.mod_eq_of_lt hlt]
    rfl
  · rw [Nat.toDigits_of_base_le (by decide) hle]
    exact List.getLast?_concat

/-- The number of digits is one more than the greatest power of ten up to the number. -/
theorem exists_length_toDigits {n : Nat} (h : 0 < n) :
    ∃ count, (Nat.toDigits 10 n).length = count + 1 ∧ 10 ^ count ≤ n ∧ n < 10 ^ (count + 1) := by
  obtain ⟨count, hcount⟩ :=
    Nat.exists_eq_succ_of_ne_zero (List.length_eq_zero_iff.not.mpr (@Nat.toDigits_ne_nil n 10))
  refine ⟨count, hcount, ?_,
    (Nat.length_toDigits_le_iff (by decide) (Nat.succ_pos count)).mp hcount.le⟩
  cases count with
  | zero => exact h
  | succ count =>
    refine Nat.le_of_not_lt fun hlt => ?_
    have hle := (Nat.length_toDigits_le_iff (by decide) (Nat.succ_pos count)).mpr hlt
    omega

/-! ## Laying out digits -/

section Digits

variable {digits : List Char}

/-- Digits padded with zeros are a whole number. -/
theorem isWhole_positional (hstart : StartsNonzero digits) (e : Nat) :
    IsWhole (positional digits (.ofNat e)) := by
  obtain ⟨c, hc, hne⟩ := hstart.head
  refine Or.inr ⟨?_, c, ?_, hne⟩
  · refine List.forall_mem_append.mpr ⟨hstart.digits, fun c hc => ?_⟩
    rw [List.eq_of_mem_replicate hc]
    rfl
  · rw [positional, List.head?_append, Option.mem_def.mp hc]
    rfl

/-- Digits cut by a point, or behind one, are a whole number with a fraction. -/
theorem isMixed_positional (hstart : StartsNonzero digits) (hend : EndsNonzero digits) (e : Nat) :
    IsMixed (positional digits (.negSucc e)) := by
  obtain ⟨c, hc, hne⟩ := hstart.head
  obtain ⟨c', hc', hne'⟩ := hend.last
  rw [positional]
  split_ifs with hlt
  · refine .point (Or.inr ⟨fun c hc => hstart.digits c (List.mem_of_mem_take hc), c, ?_, hne⟩)
      ⟨fun c hc => hstart.digits c (List.mem_of_mem_drop hc), c', ?_, hne'⟩
    · rw [List.head?_take, if_neg (by omega)]
      exact hc
    · rw [List.getLast?_drop, if_neg (by omega)]
      exact hc'
  · refine @IsMixed.point ['0'] _ (Or.inl rfl) ⟨?_, c', ?_, hne'⟩
    · refine List.forall_mem_append.mpr ⟨fun c hc => ?_, hstart.digits⟩
      rw [List.eq_of_mem_replicate hc]
      rfl
    · rw [List.getLast?_append, Option.mem_def.mp hc']
      rfl

/-- The scientific layout, if the power of ten is not zero. -/
theorem isScientific_scientific (hstart : StartsNonzero digits) (hend : EndsNonzero digits)
    {exponent : Int} (hpower : exponent + digits.length - 1 ≠ 0) :
    IsScientific (if exponent + digits.length - 1 < 0 then '-' else '+')
      (scientific digits exponent) := by
  have hdigits := startsNonzero_toDigits (Int.natAbs_pos.mpr hpower)
  obtain ⟨c, hc, hne⟩ := hstart.head
  obtain ⟨c', hc', hne'⟩ := hend.last
  unfold scientific
  generalize exponent + (digits.length : Int) - 1 = power at *
  match digits with
  | [] => cases hc
  | [first] => exact .single hstart hdigits
  | first :: second :: rest =>
    -- the first digit is the one before the point, the last digit the last one behind it
    have hfirst : StartsNonzero [first] :=
      ⟨by simpa [AllDigits] using hstart.digits first List.mem_cons_self, c, hc, hne⟩
    have hrest : EndsNonzero (second :: rest) :=
      ⟨fun c hc => hstart.digits c (List.mem_cons_of_mem first hc), c', by simpa using hc', hne'⟩
    exact .point hfirst hrest hdigits

end Digits

/-! ## The layout of a magnitude -/

/-- The power of ten of the first digit, from the value of a decimal. -/
theorem power_bounds {d : Decimal} (h : 0 < d.digits) :
    (10 : ℚ) ^ (d.exponent + (Nat.toDigits 10 d.digits).length - 1) ≤ d.value ∧
      d.value < 10 ^ (d.exponent + (Nat.toDigits 10 d.digits).length) := by
  obtain ⟨count, hcount, hlower, hupper⟩ := exists_length_toDigits h
  have hfirst : d.exponent + (Nat.toDigits 10 d.digits).length - 1
      = (count : Int) + d.exponent := by omega
  have hbeyond : d.exponent + (Nat.toDigits 10 d.digits).length
      = ((count + 1 : Nat) : Int) + d.exponent := by omega
  rw [hfirst, hbeyond]
  exact ⟨Decimal.pow_le_value hlower, Decimal.value_lt_pow hupper⟩

/-- From `10 ^ 21` on the power of ten is positive. -/
theorem power_pos {d : Decimal} (h : positionalEnd ≤ d.ordinal) :
    0 < d.exponent + (Nat.toDigits 10 d.digits).length - 1 := by
  have hpos : 0 < d.ordinal := lt_of_lt_of_le (by decide +kernel) h
  have hten : (Decimal.mk 1 1).ordinal < positionalEnd := by decide +kernel
  by_contra hle
  obtain ⟨-, hupper⟩ := power_bounds (Decimal.digits_pos hpos)
  have hvalue : d.value ≤ (Decimal.mk 1 1).value := by
    rw [Decimal.value_one]
    exact hupper.le.trans (zpow_le_zpow_right₀ (by norm_num) (by omega))
  exact absurd (h.trans (Decimal.ordinal_mono hvalue)) (Nat.not_le.mpr hten)

/-- Below `10 ^ (-6)` the power of ten is negative. -/
theorem power_neg {d : Decimal} (hpos : 0 < d.ordinal) (h : d.ordinal < positionalStart) :
    d.exponent + (Nat.toDigits 10 d.digits).length - 1 < 0 := by
  have hone : positionalStart ≤ (Decimal.mk 1 0).ordinal := by decide +kernel
  by_contra hge
  obtain ⟨hlower, -⟩ := power_bounds (Decimal.digits_pos hpos)
  have hvalue : (Decimal.mk 1 0).value ≤ d.value := by
    rw [Decimal.value_one]
    exact (zpow_le_zpow_right₀ (by norm_num) (by omega)).trans hlower
  exact absurd (hone.trans (Decimal.ordinal_mono hvalue)) (Nat.not_le.mpr h)

/-- **The layout of a magnitude** follows from its place among the bounds, and between them from
whether it is an integer. -/
theorem printOrdinal_layout {ordinal : Nat} (hpos : 0 < ordinal)
    (hfinite : ordinal < Binary64.infinityOrdinal) :
    (positionalStart ≤ ordinal → ordinal < positionalEnd →
      ((∃ n : Nat, Binary64.magnitude ordinal = n) → IsWhole (printOrdinal ordinal)) ∧
      ((¬ ∃ n : Nat, Binary64.magnitude ordinal = n) → IsMixed (printOrdinal ordinal))) ∧
    (positionalEnd ≤ ordinal → IsScientific '+' (printOrdinal ordinal)) ∧
    (ordinal < positionalStart → IsScientific '-' (printOrdinal ordinal)) := by
  have hcoarsest := Decimal.isCoarsest_shortest hpos hfinite
  unfold printOrdinal
  generalize Decimal.shortest ordinal = d at *
  have hordinal := hcoarsest.best.ordinal_eq
  have hinteger := hcoarsest.exponent_nonneg_iff hfinite
  -- from here on the decimal matters only through its digits,
  -- its ordinal and whether it has a fraction
  have hstart := startsNonzero_toDigits (Decimal.digits_pos (hordinal ▸ hpos))
  have hend := endsNonzero_toDigits hcoarsest.digits_mod_ten
  dsimp only
  refine ⟨fun hlow hhigh => ?_, fun hhigh => ?_, fun hlow => ?_⟩
  · rw [if_pos (by simp [hlow, hhigh]), ← hinteger]
    cases d.exponent with
    | ofNat e =>
      exact ⟨fun _ => isWhole_positional hstart e, fun h => absurd (Int.natCast_nonneg e) h⟩
    | negSucc e => exact ⟨fun h => absurd h (by omega), fun _ => isMixed_positional hstart hend e⟩
  · have hpower := power_pos (hordinal.symm ▸ hhigh)
    have hlayout := isScientific_scientific hstart hend hpower.ne'
    rw [if_neg (by simp [hhigh])]
    rwa [if_neg hpower.not_gt] at hlayout
  · have hpower := power_neg (hordinal.symm ▸ hpos) (hordinal.symm ▸ hlow)
    have hlayout := isScientific_scientific hstart hend hpower.ne
    rw [if_neg (by simp [hlow])]
    rwa [if_pos hpower] at hlayout

/-! ## The layout of a number -/

/-- The bounds of the positional layout are the numbers that are read from them. -/
theorem value_read_bounds : (read "1e-6").value = Binary64.magnitude positionalStart ∧
    (read "1e21").value = Binary64.magnitude positionalEnd := by
  have hstart : (read "1e-6").negative = false ∧ (read "1e-6").ordinal = positionalStart := by
    decide +kernel
  have hend : (read "1e21").negative = false ∧ (read "1e21").ordinal = positionalEnd := by
    decide +kernel
  rw [Binary64.value_eq, Binary64.value_eq, hstart.1, hstart.2, hend.1, hend.2]
  exact ⟨rfl, rfl⟩

/-- **The layout of printed numbers**: a minus sign for negative numbers, then the positional layout
between the bounds, with a fraction unless the number is an integer, and the scientific layout with
the sign of the exponent elsewhere. -/
theorem print_layout {x : Binary64} (hnan : ¬ x.isNaN = true) (hinfinite : ¬ x.isInfinite = true)
    (hzero : ¬ x.isZero = true) :
    ∃ body, (print x).toList = (if x.value < 0 then '-' :: body else body) ∧
      ((read "1e-6").value ≤ |x.value| → |x.value| < (read "1e21").value →
        ((∃ n : ℤ, x.value = n) → IsWhole body) ∧ ((¬ ∃ n : ℤ, x.value = n) → IsMixed body)) ∧
      ((read "1e21").value ≤ |x.value| → IsScientific '+' body) ∧
      (|x.value| < (read "1e-6").value → IsScientific '-' body) := by
  obtain ⟨hpos, hfinite⟩ := Binary64.ordinal_bounds hnan hinfinite hzero
  have hlayout := printOrdinal_layout hpos hfinite
  refine ⟨printOrdinal x.ordinal, ?_, ?_⟩
  · rw [print, if_neg hnan, if_neg hinfinite, if_neg hzero, String.toList_ofList]
    simp only [Binary64.value_neg_iff hpos]
  · rw [value_read_bounds.1, value_read_bounds.2, Binary64.abs_value,
      Binary64.magnitude_strictMono.le_iff_le, Binary64.magnitude_strictMono.le_iff_le,
      Binary64.magnitude_strictMono.lt_iff_lt, Binary64.magnitude_strictMono.lt_iff_lt,
      Binary64.value_eq_intCast_iff]
    exact hlayout

/-- The last number below the positional layout, with its sign, and the last integer in it. -/
theorem print_layout_bounds :
    (print ⟨0xbeb0c6f7a0b5ed8c⟩ = "-9.999999999999997e-7" ∧
      Binary64.value ⟨0xbeb0c6f7a0b5ed8c⟩ < 0 ∧
      |Binary64.value ⟨0xbeb0c6f7a0b5ed8c⟩| < (read "1e-6").value ∧
      IsScientific '-' "9.999999999999997e-7".toList) ∧
    (print ⟨0x444b1ae4d6e2ef4f⟩ = "999999999999999900000" ∧
      (∃ n : ℤ, Binary64.value ⟨0x444b1ae4d6e2ef4f⟩ = n) ∧
      |Binary64.value ⟨0x444b1ae4d6e2ef4f⟩| < (read "1e21").value ∧
      IsWhole "999999999999999900000".toList) := by
  constructor
  · have hprint : print ⟨0xbeb0c6f7a0b5ed8c⟩ = "-9.999999999999997e-7" := by decide +kernel
    have hneg := (Binary64.value_neg_iff (x := ⟨0xbeb0c6f7a0b5ed8c⟩) (by decide)).mpr (by decide)
    have hlow : |Binary64.value ⟨0xbeb0c6f7a0b5ed8c⟩| < (read "1e-6").value := by
      rw [Binary64.abs_value, value_read_bounds.1]
      exact Binary64.magnitude_strictMono (by decide +kernel)
    obtain ⟨body, htext, -, -, hlayout⟩ :=
      @print_layout ⟨0xbeb0c6f7a0b5ed8c⟩ (by decide) (by decide) (by decide)
    rw [hprint, if_pos hneg] at htext
    obtain rfl := (List.cons.inj htext).2
    exact ⟨hprint, hneg, hlow, hlayout hlow⟩
  · have hprint : print ⟨0x444b1ae4d6e2ef4f⟩ = "999999999999999900000" := by decide +kernel
    have hpos := mt (Binary64.value_neg_iff (x := ⟨0x444b1ae4d6e2ef4f⟩) (by decide)).mp (by decide)
    have hinteger : ∃ n : ℤ, Binary64.value ⟨0x444b1ae4d6e2ef4f⟩ = n := by
      refine (Binary64.value_eq_intCast_iff _).mpr ⟨999999999999999868928, ?_⟩
      rw [Binary64.magnitude, div_eq_iff Binary64.unitsPerOne_pos.ne', ← Nat.cast_mul]
      exact congrArg Nat.cast (by decide +kernel)
    have hlow : (read "1e-6").value ≤ |Binary64.value ⟨0x444b1ae4d6e2ef4f⟩| := by
      rw [Binary64.abs_value, value_read_bounds.1]
      exact Binary64.magnitude_strictMono.monotone (by decide +kernel)
    have hhigh : |Binary64.value ⟨0x444b1ae4d6e2ef4f⟩| < (read "1e21").value := by
      rw [Binary64.abs_value, value_read_bounds.2]
      exact Binary64.magnitude_strictMono (by decide +kernel)
    obtain ⟨body, htext, hlayout, -, -⟩ :=
      @print_layout ⟨0x444b1ae4d6e2ef4f⟩ (by decide) (by decide) (by decide)
    rw [hprint, if_neg hpos] at htext
    obtain rfl := htext
    exact ⟨hprint, hinteger, hhigh, (hlayout hlow hhigh).1 hinteger⟩

end Numeral

end StackMachine
