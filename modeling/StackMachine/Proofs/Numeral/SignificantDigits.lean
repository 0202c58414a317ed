import StackMachine.Proofs.Decimal.FewestDigits
import StackMachine.Proofs.Numeral.Grammar

/-! # The significant digits of printed numbers

Of the many literals that are read as one number, the printed one has the fewest significant digits,
and of those with as many it is nearest to the exact value of the number. Both are facts about
decimals whose digits do not end in a zero; what is left here is that every literal other than zero
has such a normal form, with as many digits as the text has significant ones, and that the normal
form of a printed text is the shortest decimal itself.

* **`Numeral.significantDigits`** — the digits of a text up to the mark of an exponent, without the
  zeros at both ends.
* **`Numeral.IsLiteral`** — a text with the rational number that it is a literal of;
  **`Numeral.IsLiteral.unique`** — one text is a literal of one number.
* **`Numeral.exists_normal_of_denotes`** — the normal form of a literal; **`Numeral.denotes_print`**
  — a printed text is a literal of the shortest decimal.
* **`Numeral.print_shortest`** — no literal that is read as a number is shorter than the printed
  one, and none that is as short is nearer. -/

namespace StackMachine

namespace Numeral

/-! ## Significant digits of a text -/

/-- The mark of an exponent. -/
def isMark (c : Char) : Bool := c == 'e' || c == 'E'

/-- The **significant digits** of a text: the digits before the mark of an exponent, without the
zeros at both ends. -/
def significant (text : List Char) : List Char :=
  Text.strip (· == '0') ((text.takeWhile fun c => !isMark c).filter Char.isDigit)

/-- The number of significant digits of a text. -/
def significantDigits (text : String) : Nat := (significant text.toList).length

/-- A text is a **literal** of a rational number: blanks around an optional sign and a numeral. -/
inductive IsLiteral : String → ℚ → Prop where
  /-- A signed numeral between blanks. -/
  | blanks {text : String} {core : List Char} {negative : Bool} {q : ℚ}
      (hcore : Text.IsStripped Text.isBlank text.toList core) (hdenotes : Denotes core negative q) :
      IsLiteral text (if negative then -q else q)

/-! ## Place values -/

/-- A digit before others counts by its place. -/
theorem placeValue_cons (c : Char) (digits : List Char) :
    placeValue (c :: digits) = (c.toNat - '0'.toNat) * 10 ^ digits.length + placeValue digits := by
  rw [← List.singleton_append, placeValue_append]
  simp [placeValue]

/-- A digit behind others counts by itself. -/
theorem placeValue_concat (digits : List Char) (c : Char) :
    placeValue (digits ++ [c]) = 10 * placeValue digits + (c.toNat - '0'.toNat) := by
  rw [placeValue_append]
  simp [placeValue]
  ring

/-- Zeros have no value. -/
theorem placeValue_of_zeros {digits : List Char} (h : ∀ c ∈ digits, (c == '0') = true) :
    placeValue digits = 0 := by
  induction digits with
  | nil => rfl
  | cons c digits ih =>
    obtain ⟨hc, hdigits⟩ := List.forall_mem_cons.mp h
    rw [placeValue_cons, ih hdigits, eq_of_beq hc, Nat.sub_self, Nat.zero_mul]

/-- A digit is at most nine, and zero only as the character of zero. -/
theorem digit_bounds {c : Char} (h : c.isDigit = true) :
    c.toNat - '0'.toNat < 10 ∧ ((c == '0') = false → 0 < c.toNat - '0'.toNat) := by
  have hrange : 48 ≤ c.toNat ∧ c.toNat ≤ 57 := by
    simpa [Char.isDigit, UInt32.le_iff_toNat_le] using h
  have hzero : '0'.toNat = 48 := rfl
  refine ⟨by omega, fun hne => ?_⟩
  have hne' : c.toNat ≠ '0'.toNat := fun heq => by simp [Char.toNat_inj.mp heq] at hne
  omega

/-- Digits stay below the place before the first one. -/
theorem placeValue_lt {digits : List Char} (h : AllDigits digits) :
    placeValue digits < 10 ^ digits.length := by
  have hlt : ∀ n ∈ digits.reverse.map (fun c => c.toNat - '0'.toNat), n < 10 := by
    intro n hn
    obtain ⟨c, hc, rfl⟩ := List.mem_map.mp hn
    exact (digit_bounds (h c (List.mem_reverse.mp hc))).1
  have hvalue := Nat.ofDigits_lt_base_pow_length (by decide) hlt
  rwa [List.length_map, List.length_reverse] at hvalue

/-- **Digits without zeros at their ends** reach the place of the first one, and are no multiple of
ten. -/
theorem placeValue_of_isStripped {digits core : List Char}
    (h : Text.IsStripped (· == '0') digits core) (hdigits : AllDigits digits)
    (hpos : placeValue digits ≠ 0) :
    ∃ count zeros, core.length = count + 1 ∧ placeValue digits = placeValue core * 10 ^ zeros ∧
      10 ^ count ≤ placeValue core ∧ placeValue core < 10 ^ (count + 1) ∧
        placeValue core % 10 ≠ 0 := by
  obtain ⟨before, after, rfl, hbefore, hafter⟩ := h.surrounded
  have hvalue : placeValue (before ++ (core ++ after)) = placeValue core * 10 ^ after.length := by
    rw [placeValue_append, placeValue_append, placeValue_of_zeros hbefore,
      placeValue_of_zeros hafter]
    ring
  have hcore : AllDigits core := fun c hc => hdigits c (by simp [hc])
  have hne : core ≠ [] := by
    rintro rfl
    rw [hvalue] at hpos
    exact hpos (by simp [placeValue])
  obtain ⟨first, rest, rfl⟩ := List.exists_cons_of_ne_nil hne
  have hfirst := (digit_bounds (hcore first List.mem_cons_self)).2 (h.head first rfl)
  refine ⟨rest.length, after.length, rfl, hvalue, ?_, placeValue_lt hcore, ?_⟩
  · rw [placeValue_cons]
    exact (Nat.le_mul_of_pos_left _ hfirst).trans (Nat.le_add_right _ _)
  · generalize hwhole : first :: rest = core at *
    have hlast := List.dropLast_append_getLast hne
    have hdigit := hcore _ (List.getLast_mem hne)
    obtain ⟨hlt, hnonzero⟩ := digit_bounds hdigit
    have hpositive := hnonzero (h.last _ (List.getLast?_eq_getLast_of_ne_nil hne))
    rw [← hlast, placeValue_concat]
    omega

/-! ## Literals -/

/-- The digits of a significand, in a row, spell its value up to a power of ten, and the only other
character is a point. -/
theorem IsSignificand.exists_scale {text : List Char} {q : ℚ} (h : IsSignificand text q) :
    (∀ c ∈ text, c.isDigit = true ∨ c = '.') ∧
    ∃ scale : ℤ, q = placeValue (text.filter Char.isDigit) * 10 ^ scale := by
  cases h with
  | whole hne hdigits =>
    refine ⟨fun c hc => Or.inl (hdigits c hc), 0, ?_⟩
    rw [List.filter_eq_self.mpr hdigits, zpow_zero, mul_one]
  | @point whole fraction hne hwhole hfraction =>
    have hfilter : (whole ++ '.' :: fraction).filter Char.isDigit = whole ++ fraction := by
      rw [List.filter_append, List.filter_cons_of_neg (by decide), List.filter_eq_self.mpr hwhole,
        List.filter_eq_self.mpr hfraction]
    refine ⟨?_, 0 - (fraction.length : ℤ), ?_⟩
    · intro c hc
      obtain hc | hc := List.mem_append.mp hc
      · exact Or.inl (hwhole c hc)
      · exact (List.mem_cons.mp hc).symm.imp_left (hfraction c)
    · have hvalue := value_point whole fraction 0
      rw [Decimal.value, ofDigits_eq_placeValue, zpow_zero, mul_one] at hvalue
      rw [hfilter, hvalue]

/-- The mark of an exponent is neither a blank nor part of a significand. -/
theorem of_isMark {c : Char} (h : isMark c = true) :
    Text.isBlank c = false ∧ c.isDigit = false ∧ c ≠ '.' := by
  obtain rfl | rfl : c = 'e' ∨ c = 'E' := by simpa [isMark] using h
  · decide
  · decide

/-- Among blanks there are no digits. -/
theorem filter_isDigit_of_isBlank {text : List Char} (h : ∀ c ∈ text, Text.isBlank c = true) :
    text.filter Char.isDigit = [] := by
  refine List.filter_eq_nil_iff.mpr fun c hc hdigit => ?_
  have hblank := h c hc
  rw [Text.isBlank_of_isDigit hdigit] at hblank
  cases hblank

/-- A sign has no digit in it, and no mark of an exponent. -/
theorem IsSign.filter_isDigit {sign : List Char} {negative : Bool} (h : IsSign sign negative) :
    sign.filter Char.isDigit = [] ∧ ∀ c ∈ sign, isMark c = false := by
  cases h <;> simp [isMark]

/-- Behind a significand, no digit stands before the mark of an exponent. -/
theorem IsExponent.filter_isDigit {exponent after : List Char} {power : Int}
    (h : IsExponent exponent power) (hafter : ∀ c ∈ after, Text.isBlank c = true) :
    ((exponent ++ after).takeWhile fun c => !isMark c).filter Char.isDigit = [] := by
  cases h with
  | absent => exact filter_isDigit_of_isBlank fun c hc => hafter c (List.takeWhile_subset _ hc)
  | marked hmark hsign hne hdigits => obtain rfl | rfl := hmark <;> rfl

/-- **The significant digits of a literal** are those of its significand: neither the blanks and the
sign before it nor what follows the mark of an exponent count. -/
theorem significant_of_denotes {text core : List Char} {negative : Bool} {q : ℚ}
    (hcore : Text.IsStripped Text.isBlank text core) (h : Denotes core negative q) :
    ∃ digits, ∃ scale : ℤ, AllDigits digits ∧ significant text = Text.strip (· == '0') digits ∧
      q = placeValue digits * 10 ^ scale := by
  obtain ⟨before, after, rfl, hbefore, hafter⟩ := hcore.surrounded
  cases h with
  | @signed sign _ _ _ hsign hnumeral =>
    cases hnumeral with
    | @scaled digits exponent _ power hsignificand hexponent =>
      obtain ⟨hchars, scale, rfl⟩ := hsignificand.exists_scale
      -- the mark of the exponent is the first one in the text
      have hfront : ∀ c ∈ before ++ (sign ++ digits), (!isMark c) = true := by
        intro c hc
        rw [Bool.not_eq_true', Bool.eq_false_iff]
        intro hmark
        obtain ⟨hblank, hdigit, hpoint⟩ := of_isMark hmark
        obtain hc | hc := List.mem_append.mp hc
        · exact Bool.false_ne_true (hblank.symm.trans (hbefore c hc))
        · obtain hc | hc := List.mem_append.mp hc
          · exact Bool.false_ne_true ((hsign.filter_isDigit.2 c hc).symm.trans hmark)
          · obtain hc | hc := hchars c hc
            · exact Bool.false_ne_true (hdigit.symm.trans hc)
            · exact hpoint hc
      have htext : before ++ (sign ++ (digits ++ exponent) ++ after)
          = (before ++ (sign ++ digits)) ++ (exponent ++ after) := by simp
      refine ⟨digits.filter Char.isDigit, scale + power, fun c hc => List.of_mem_filter hc, ?_, ?_⟩
      · rw [significant, htext, List.takeWhile_append_of_pos hfront, List.filter_append,
          hexponent.filter_isDigit hafter, List.filter_append, List.filter_append,
          filter_isDigit_of_isBlank hbefore, hsign.filter_isDigit.1]
        simp
      · rw [zpow_add₀ (by norm_num), mul_assoc]

/-- **A literal other than zero in its normal form**: a decimal whose digits do not end in a zero,
as many as the significant digits of the text. -/
theorem exists_normal_of_denotes {text : String} {core : List Char} {negative : Bool} {q : ℚ}
    (hcore : Text.IsStripped Text.isBlank text.toList core) (h : Denotes core negative q)
    (hq : q ≠ 0) :
    ∃ d : Decimal, ∃ count, d.value = q ∧ d.digits % 10 ≠ 0 ∧ significantDigits text = count + 1 ∧
      10 ^ count ≤ d.digits ∧ d.digits < 10 ^ (count + 1) := by
  obtain ⟨digits, scale, hdigits, hsignificant, rfl⟩ := significant_of_denotes hcore h
  have hpos : placeValue digits ≠ 0 := by
    intro hzero
    rw [hzero, Nat.cast_zero, zero_mul] at hq
    exact hq rfl
  obtain ⟨count, zeros, hlength, hvalue, hlower, hupper, hmod⟩ :=
    placeValue_of_isStripped (Text.isStripped_strip _ digits) hdigits hpos
  refine ⟨⟨placeValue (Text.strip (· == '0') digits), zeros + scale⟩, count, ?_, hmod, ?_,
    hlower, hupper⟩
  · rw [Decimal.value, hvalue, zpow_add₀ (by norm_num), zpow_natCast]
    push_cast
    ring
  · rw [significantDigits, hsignificant, hlength]

/-! ## The printed text -/

/-- **The text of a magnitude is a numeral of the shortest decimal.** -/
theorem isNumeral_printOrdinal (ordinal : Nat) :
    IsNumeral (printOrdinal ordinal) (Decimal.shortest ordinal).value := by
  obtain hread | ⟨digits, e, hshortest, hread⟩ := readDecimal?_printOrdinal ordinal
  · exact isNumeral_of_readDecimal? hread
  · have hvalue : (Decimal.mk (digits * Nat.pow 10 e) 0).value
        = (Decimal.mk digits (.ofNat e)).value := by
      rw [Decimal.value_ofNat, Decimal.value, Nat.pow_eq]
      push_cast
      rw [mul_one]
    rw [hshortest, ← hvalue]
    exact isNumeral_of_readDecimal? hread

/-- **A printed number is a literal of the shortest decimal** with the sign of the number. -/
theorem denotes_print {x : Binary64} (hnan : ¬ x.isNaN = true) (hinfinite : ¬ x.isInfinite = true)
    (hzero : ¬ x.isZero = true) :
    Denotes (Text.trim (print x).toList) x.negative (Decimal.shortest x.ordinal).value := by
  have hnumeral := isNumeral_printOrdinal x.ordinal
  obtain ⟨d, hread, -⟩ := hnumeral.exists_readDecimal?
  have hblank := isBlank_of_readDecimal? hread
  rw [print, if_neg hnan, if_neg hinfinite, if_neg hzero, String.toList_ofList]
  generalize printOrdinal x.ordinal = numeral at *
  generalize (Decimal.shortest x.ordinal).value = q at *
  cases x.negative with
  | true =>
    have hsigned : ∀ c ∈ '-' :: numeral, Text.isBlank c = false :=
      List.forall_mem_cons.mpr ⟨by decide, hblank⟩
    rw [if_pos rfl, Text.trim_of_forall hsigned]
    exact .signed .minus hnumeral
  | false =>
    rw [if_neg Bool.false_ne_true, Text.trim_of_forall hblank]
    exact .signed .absent hnumeral

/-- A text denotes one number. -/
theorem Denotes.unique {text : List Char} {negative negative' : Bool} {q q' : ℚ}
    (h : Denotes text negative q) (h' : Denotes text negative' q') :
    negative = negative' ∧ q = q' := by
  obtain ⟨rest, d, hsplit, hread, rfl⟩ := h.exists_readDecimal?
  obtain ⟨rest', d', hsplit', hread', rfl⟩ := h'.exists_readDecimal?
  obtain ⟨rfl, rfl⟩ := Prod.mk.inj (hsplit.symm.trans hsplit')
  obtain rfl := Option.some.inj (hread.symm.trans hread')
  exact ⟨rfl, rfl⟩

/-- A text is a literal of one number. -/
theorem IsLiteral.unique {text : String} {q q' : ℚ} (h : IsLiteral text q)
    (h' : IsLiteral text q') : q = q' := by
  cases h with
  | blanks hcore hdenotes =>
    cases h' with
    | blanks hcore' hdenotes' =>
      obtain rfl := hcore.strip_eq.symm.trans hcore'.strip_eq
      obtain ⟨rfl, rfl⟩ := hdenotes.unique hdenotes'
      rfl

/-- A text is a literal if the reader finds a decimal behind its sign. -/
theorem isLiteral_of_readDecimal? {text : String} {d : Decimal}
    (h : readDecimal? (splitSign (Text.trim text.toList)).2 = some d) :
    IsLiteral text (if (splitSign (Text.trim text.toList)).1 then -d.value else d.value) :=
  .blanks (Text.isStripped_strip _ _) (denotes_of_readDecimal? h)

/-- **A literal that is read as a finite number other than zero**, in its normal form: a decimal
that rounds to the ordinal of the number, with the sign of the number. -/
theorem exists_normal_of_isLiteral {x : Binary64} (hpos : 0 < x.ordinal) {text : String} {q : ℚ}
    (h : IsLiteral text q) (hread : read text = x) :
    ∃ d : Decimal, ∃ count, q = (if x.negative then -d.value else d.value) ∧ d.ordinal = x.ordinal ∧
      d.digits % 10 ≠ 0 ∧
      significantDigits text = count + 1 ∧ 10 ^ count ≤ d.digits ∧ d.digits < 10 ^ (count + 1) := by
  cases h with
  | @blanks _ _ magnitude hcore hdenotes =>
    obtain rfl := Text.isStripped_isBlank_iff.mp hcore
    obtain ⟨rfl, hnearest⟩ := read_of_denotes hdenotes
    rw [hread] at hnearest hdenotes ⊢
    have hnonzero : magnitude ≠ 0 := by
      rintro rfl
      exact hpos.ne' (hnearest.unique Decimal.isNearest_zero)
    obtain ⟨d, count, rfl, hmod, hcount, hlower, hupper⟩ :=
      exists_normal_of_denotes hcore hdenotes hnonzero
    exact ⟨d, count, rfl, Decimal.ordinal_eq_iff.mpr hnearest, hmod, hcount, hlower, hupper⟩

/-- **Printed numbers are the shortest**: no literal that is read as the number has fewer
significant digits than the printed one, and none with as many is nearer to the exact value. -/
theorem print_shortest {x : Binary64} (hnan : ¬ x.isNaN = true) (hinfinite : ¬ x.isInfinite = true)
    (hzero : ¬ x.isZero = true) :
    (∃ p, IsLiteral (print x) p) ∧ read (print x) = x ∧
    ∀ p q text, IsLiteral (print x) p → IsLiteral text q → read text = x →
      significantDigits (print x) ≤ significantDigits text ∧
      (significantDigits text = significantDigits (print x) → |x.value - p| ≤ |x.value - q|) := by
  have hself := read_print_of_isFinite hnan hinfinite hzero
  have hdenotes := denotes_print hnan hinfinite hzero
  have hcore := Text.isStripped_strip Text.isBlank (print x).toList
  obtain ⟨hpos, hfinite⟩ := Binary64.ordinal_bounds hnan hinfinite hzero
  have hcoarsest := Decimal.isCoarsest_shortest hpos hfinite
  generalize Decimal.shortest x.ordinal = shortest at *
  refine ⟨⟨_, .blanks hcore hdenotes⟩, hself, fun p q text hp hq hread => ?_⟩
  obtain ⟨printed, count, rfl, -, hmod, hcount, hlower, -⟩ :=
    exists_normal_of_isLiteral hpos hp hself
  obtain ⟨d, count', rfl, hordinal, -, hcount', -, hupper⟩ :=
    exists_normal_of_isLiteral hpos hq hread
  -- the normal form of the printed text is the shortest decimal
  obtain rfl : printed = shortest := by
    refine hcoarsest.eq_of_value_eq ?_ hmod
    have hvalue := hp.unique (.blanks hcore hdenotes)
    cases hsign : x.negative with
    | true => simpa [hsign] using hvalue
    | false => simpa [hsign] using hvalue
  -- so the number of significant digits and the distance are those of two decimals
  have hle := hcoarsest.pow_le_digits hpos hordinal hlower
  have hlt : count < count' + 1 := (Nat.pow_lt_pow_iff_right (by decide)).mp (hle.trans_lt hupper)
  refine ⟨by omega, fun hequal => ?_⟩
  obtain rfl : count' = count := by omega
  rw [Binary64.abs_value_sub, Binary64.abs_value_sub]
  exact hcoarsest.closest hpos hfinite hordinal hlower hupper

/-- The least number is read from `3e-324` as well as from the text that is printed for it, which is
as short and nearer. -/
theorem print_shortest_least :
    print ⟨1⟩ = "5e-324" ∧ IsLiteral "5e-324" (5 * 10 ^ (-324 : ℤ)) ∧
    IsLiteral "3e-324" (3 * 10 ^ (-324 : ℤ)) ∧
    read "3e-324" = ⟨1⟩ ∧ significantDigits "3e-324" = significantDigits (print ⟨1⟩) ∧
    |Binary64.value ⟨1⟩ - 5 * 10 ^ (-324 : ℤ)| ≤ |Binary64.value ⟨1⟩ - 3 * 10 ^ (-324 : ℤ)| := by
  have hprint : print ⟨1⟩ = "5e-324" := by decide +kernel
  have hfive : IsLiteral "5e-324" (5 * 10 ^ (-324 : ℤ)) :=
    @isLiteral_of_readDecimal? "5e-324" ⟨5, -324⟩ rfl
  have hthree : IsLiteral "3e-324" (3 * 10 ^ (-324 : ℤ)) :=
    @isLiteral_of_readDecimal? "3e-324" ⟨3, -324⟩ rfl
  have hread : read "3e-324" = ⟨1⟩ := by decide +kernel
  have hcount : significantDigits "3e-324" = significantDigits (print ⟨1⟩) := by
    rw [hprint]
    decide
  obtain ⟨-, -, hshortest⟩ := @print_shortest ⟨1⟩ (by decide) (by decide) (by decide)
  exact ⟨hprint, hfive, hthree, hread, hcount,
    (hshortest _ _ "3e-324" (hprint ▸ hfive) hthree hread).2 hcount⟩

end Numeral

end StackMachine
