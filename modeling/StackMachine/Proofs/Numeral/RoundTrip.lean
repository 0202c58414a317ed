import StackMachine.Numeral.Reader
import StackMachine.Proofs.Binary64.Similarity
import StackMachine.Proofs.Decimal.ReadBack

/-! # Printed numbers read back

A printed number is an optional minus sign before the digits of the shortest decimal, laid out with
zeros, a point or an exponent. The reader undoes each layout: it finds the digits and the power of
ten again, or for a padded integer the same value with the zeros among the digits. What is left is
that the shortest decimal rounds to the number it was made for.

* **`Numeral.readDecimal?_whole`** and **`Numeral.readDecimal?_point`** — how a numeral without and
  with a point reads.
* **`Numeral.readDecimal?_positional_ofNat`**, **`Numeral.readDecimal?_positional_negSucc`** and
  **`Numeral.readDecimal?_scientific`** — every layout is undone.
* **`Numeral.read_signed`** — a numeral behind its sign is neither trimmed nor taken for a name.
* **`Numeral.read_print`** — the number that is read is the one that was printed. -/

namespace StackMachine

/-- A text without blanks is not trimmed. -/
theorem Text.trim_of_forall {text : List Char} (h : ∀ c ∈ text, isBlank c = false) :
    trim text = text := by
  have hkeep : ∀ chars : List Char, (∀ c ∈ chars, isBlank c = false) →
      chars.dropWhile isBlank = chars := by
    intro chars hchars
    cases chars with
    | nil => rfl
    | cons c rest => exact List.dropWhile_cons_of_neg (by simp [hchars c List.mem_cons_self])
  have hreverse : ∀ c ∈ text.reverse, isBlank c = false := fun c hc => h c (List.mem_reverse.mp hc)
  unfold trim
  rw [hkeep text h, hkeep text.reverse hreverse, List.reverse_reverse]

/-- A digit is not blank. -/
theorem Text.isBlank_of_isDigit {c : Char} (h : c.isDigit = true) : isBlank c = false := by
  have hrange : 48 ≤ c.toNat ∧ c.toNat ≤ 57 := by
    simpa [Char.isDigit, UInt32.le_iff_toNat_le] using h
  simp only [isBlank, blankRanges, List.any_cons, List.any_nil, Bool.or_false, Bool.or_eq_false_iff,
    Bool.and_eq_false_iff, decide_eq_false_iff_not]
  omega

/-- The sign bit and the ordinal make up the number. -/
theorem Binary64.ofOrdinal_ordinal (x : Binary64) : ofOrdinal x.negative x.ordinal = x := by
  have hword := x.bits.toNat_lt
  refine congrArg Binary64.mk (UInt64.toNat.inj ?_)
  rw [UInt64.toNat_ofNat']
  cases hsign : x.negative with
  | true =>
    have hlarge : 9223372036854775808 ≤ x.bits.toNat := of_decide_eq_true hsign
    show (9223372036854775808 + x.bits.toNat % 9223372036854775808) % 18446744073709551616
      = x.bits.toNat
    omega
  | false =>
    have hsmall : ¬ 9223372036854775808 ≤ x.bits.toNat := of_decide_eq_false hsign
    show x.bits.toNat % 9223372036854775808 % 18446744073709551616 = x.bits.toNat
    omega

/-- The sign of a number is the one that it is made of. -/
theorem Binary64.negative_ofOrdinal {ordinal : Nat} (h : ordinal < signWeight) (negative : Bool) :
    (ofOrdinal negative ordinal).negative = negative := by
  have hlt : ordinal < 9223372036854775808 := h
  rw [Binary64.negative, ofOrdinal, UInt64.toNat_ofNat']
  cases negative with
  | true =>
    have hword : 9223372036854775808 ≤ (9223372036854775808 + ordinal) % 18446744073709551616 := by
      omega
    exact decide_eq_true hword
  | false =>
    have hword : ¬ 9223372036854775808 ≤ ordinal % 18446744073709551616 := by omega
    exact decide_eq_false hword

/-- The ordinal of a finite number other than zero lies between that of zero and that of
infinity. -/
theorem Binary64.ordinal_bounds {x : Binary64} (hnan : ¬ x.isNaN = true)
    (hinfinite : ¬ x.isInfinite = true) (hzero : ¬ x.isZero = true) :
    0 < x.ordinal ∧ x.ordinal < infinityOrdinal := by
  have hpos : x.ordinal ≠ 0 := fun h => hzero (beq_iff_eq.mpr h)
  have hle : ¬ infinityOrdinal < x.ordinal := fun h => hnan (decide_eq_true h)
  have hne : x.ordinal ≠ infinityOrdinal := fun h => hinfinite (beq_iff_eq.mpr h)
  omega

namespace Numeral

/-! ## Digits -/

/-- The digits of a number spell it. -/
theorem ofDigits_toDigits (n : Nat) : ofDigits (Nat.toDigits 10 n) = n :=
  Nat.ofDigitChars_ten_toDigits

/-- Each zero behind the digits multiplies by ten. -/
theorem ofDigits_append_replicate (digits : List Char) (e : Nat) :
    ofDigits (digits ++ List.replicate e '0') = ofDigits digits * Nat.pow 10 e := by
  show Nat.ofDigitChars 10 (digits ++ List.replicate e '0') 0
    = Nat.ofDigitChars 10 digits 0 * Nat.pow 10 e
  rw [Nat.ofDigitChars_append, Nat.ofDigitChars_replicate_zero, Nat.mul_comm]
  rfl

/-- Zeros before the digits do not matter. -/
theorem ofDigits_replicate_append (e : Nat) (digits : List Char) :
    ofDigits (List.replicate e '0' ++ digits) = ofDigits digits := by
  show Nat.ofDigitChars 10 (List.replicate e '0' ++ digits) 0 = Nat.ofDigitChars 10 digits 0
  rw [Nat.ofDigitChars_append, Nat.ofDigitChars_replicate_zero, Nat.mul_zero]

/-- Zeros are digits. -/
theorem isDigit_of_mem_zeros (e : Nat) : ∀ c ∈ List.replicate e '0', c.isDigit = true := by
  intro c hc
  rw [List.eq_of_mem_replicate hc]
  decide

/-- Digits are taken off the front up to the first other character. -/
theorem span_digits {digits rest : List Char} (hdigits : ∀ c ∈ digits, c.isDigit = true)
    (hrest : ∀ c ∈ rest.head?, c.isDigit = false) :
    (digits ++ rest).takeWhile Char.isDigit = digits ∧
      (digits ++ rest).dropWhile Char.isDigit = rest := by
  rw [List.takeWhile_append_of_pos hdigits, List.dropWhile_append_of_pos hdigits]
  cases rest with
  | nil => simp
  | cons c rest => simp [hrest c rfl]

/-! ## Numerals -/

/-- An exponent is a mark, then digits behind an optional sign. -/
theorem of_readExponent?_cons {mark : Char} {rest : List Char} {exponent : Int}
    (h : readExponent? (mark :: rest) = some exponent) :
    (mark = 'e' ∨ mark = 'E') ∧ ∀ c ∈ (splitSign rest).2, c.isDigit = true := by
  simp only [readExponent?, Option.ite_none_right_eq_some, Bool.and_eq_true, Bool.or_eq_true,
    beq_iff_eq] at h
  obtain ⟨⟨⟨hmark, -⟩, hdigits⟩, -⟩ := h
  exact ⟨hmark, List.all_eq_true.mp hdigits⟩

/-- What reads as an exponent starts with neither a digit nor a point. -/
theorem head_of_readExponent? {rest : List Char} {exponent : Int}
    (h : readExponent? rest = some exponent) :
    (∀ c ∈ rest.head?, c.isDigit = false) ∧ splitFraction rest = ([], rest) := by
  cases rest with
  | nil => simp [splitFraction]
  | cons mark rest =>
    obtain ⟨rfl | rfl, -⟩ := of_readExponent?_cons h
    · exact ⟨by simp, rfl⟩
    · exact ⟨by simp, rfl⟩

/-- **A numeral without a point** is digits and an exponent. -/
theorem readDecimal?_whole {whole rest : List Char} {exponent : Int} (hne : whole ≠ [])
    (hwhole : ∀ c ∈ whole, c.isDigit = true) (h : readExponent? rest = some exponent) :
    readDecimal? (whole ++ rest) = some ⟨ofDigits whole, exponent⟩ := by
  obtain ⟨hstop, hfraction⟩ := head_of_readExponent? h
  obtain ⟨htake, hdrop⟩ := span_digits hwhole hstop
  simp [readDecimal?, htake, hdrop, hfraction, hne, h]

/-- **A numeral with a point**: each digit behind the point lowers the exponent by one. -/
theorem readDecimal?_point {whole fraction rest : List Char} {exponent : Int}
    (hne : whole ≠ [] ∨ fraction ≠ []) (hwhole : ∀ c ∈ whole, c.isDigit = true)
    (hfraction : ∀ c ∈ fraction, c.isDigit = true) (h : readExponent? rest = some exponent) :
    readDecimal? (whole ++ '.' :: (fraction ++ rest))
      = some ⟨ofDigits (whole ++ fraction), exponent - (fraction.length : Int)⟩ := by
  have hpoint : ∀ c ∈ ('.' :: (fraction ++ rest)).head?, c.isDigit = false := by simp
  obtain ⟨hwholeTake, hwholeDrop⟩ := span_digits hwhole hpoint
  obtain ⟨htake, hdrop⟩ := span_digits hfraction (head_of_readExponent? h).1
  have hsome : (whole.isEmpty && fraction.isEmpty) = false := by
    obtain hne | hne := hne <;> simp [hne]
  simp [readDecimal?, hwholeTake, hwholeDrop, splitFraction, htake, hdrop, hsome, h]

/-! ## Layouts -/

/-- A printed exponent reads back. -/
theorem readExponent?_printed (power : Int) :
    readExponent? ('e' :: (if power < 0 then '-' else '+') :: Nat.toDigits 10 power.natAbs)
      = some power := by
  have hne : (Nat.toDigits 10 power.natAbs).isEmpty = false := by simp [Nat.toDigits_ne_nil]
  have hdigits : (Nat.toDigits 10 power.natAbs).all Char.isDigit = true :=
    List.all_eq_true.mpr fun c hc => Nat.isDigit_of_mem_toDigits (by decide) (by decide) hc
  by_cases hsign : power < 0
  · have hvalue : -(power.natAbs : Int) = power := by omega
    simp only [if_pos hsign, readExponent?, splitSign, hne, hdigits, ofDigits_toDigits, hvalue,
      BEq.rfl, Bool.true_or, Bool.not_false, Bool.and_self, if_true]
  · have hvalue : (power.natAbs : Int) = power := by omega
    simp only [if_neg hsign, readExponent?, splitSign, hne, hdigits, ofDigits_toDigits, hvalue,
      BEq.rfl, Bool.true_or, Bool.not_false, Bool.and_self, if_true, Bool.false_eq_true, if_false]

/-- A padded integer reads as an integer, with the zeros among its digits. -/
theorem readDecimal?_positional_ofNat {digits : List Char} (hne : digits ≠ [])
    (hdigits : ∀ c ∈ digits, c.isDigit = true) (e : Nat) :
    readDecimal? (positional digits (.ofNat e)) = some ⟨ofDigits digits * Nat.pow 10 e, 0⟩ := by
  have hpadded : ∀ c ∈ digits ++ List.replicate e '0', c.isDigit = true :=
    List.forall_mem_append.mpr ⟨hdigits, isDigit_of_mem_zeros e⟩
  have hread := readDecimal?_whole (by simp [hne]) hpadded (show readExponent? [] = some 0 from rfl)
  rwa [List.append_nil, ofDigits_append_replicate] at hread

/-- **A fraction reads back**, whether the point falls between its digits or before them. -/
theorem readDecimal?_positional_negSucc {digits : List Char}
    (hdigits : ∀ c ∈ digits, c.isDigit = true) (e : Nat) :
    readDecimal? (positional digits (.negSucc e)) = some ⟨ofDigits digits, .negSucc e⟩ := by
  have hnone : readExponent? [] = some 0 := rfl
  by_cases hinside : e + 1 < digits.length
  · have hwhole : digits.take (digits.length - (e + 1)) ≠ [] := by
      refine List.ne_nil_of_length_pos ?_
      rw [List.length_take]
      omega
    have hexponent : (0 : Int) - ((digits.drop (digits.length - (e + 1))).length : Int)
        = .negSucc e := by
      rw [List.length_drop]
      omega
    have hread := readDecimal?_point (Or.inl hwhole)
      (fun c hc => hdigits c (List.mem_of_mem_take hc))
      (fun c (hc : c ∈ digits.drop (digits.length - (e + 1))) =>
        hdigits c (List.mem_of_mem_drop hc)) hnone
    rw [List.append_nil, List.take_append_drop, hexponent] at hread
    rw [positional, if_pos hinside, hread]
  · have hfraction : ∀ c ∈ List.replicate (e + 1 - digits.length) '0' ++ digits, c.isDigit = true :=
      List.forall_mem_append.mpr ⟨isDigit_of_mem_zeros _, hdigits⟩
    have hexponent :
        (0 : Int) - ((List.replicate (e + 1 - digits.length) '0' ++ digits).length : Int)
          = .negSucc e := by
      rw [List.length_append, List.length_replicate]
      omega
    have hread :=
      @readDecimal?_point ['0'] _ _ _ (Or.inl (by simp)) (isDigit_of_mem_zeros 1) hfraction hnone
    have hzeros := ofDigits_replicate_append (e + 1 - digits.length + 1) digits
    rw [List.append_nil, hexponent] at hread
    rw [positional, if_neg hinside, ← hzeros]
    exact hread

/-- **The exponent layout reads back**: the point it may have is made up for in the exponent. -/
theorem readDecimal?_scientific {digits : List Char} (hne : digits ≠ [])
    (hdigits : ∀ c ∈ digits, c.isDigit = true) (exponent : Int) :
    readDecimal? (scientific digits exponent) = some ⟨ofDigits digits, exponent⟩ := by
  have hpower := readExponent?_printed (exponent + (digits.length : Int) - 1)
  unfold scientific
  match digits, hne, hdigits, hpower with
  | [first], hne, hdigits, hpower =>
    have hexponent : exponent + (([first] : List Char).length : Int) - 1 = exponent := by simp
    rw [hexponent] at hpower ⊢
    exact readDecimal?_whole hne hdigits hpower
  | first :: second :: rest, _, hdigits, hpower =>
    have hexponent :
        exponent + ((first :: second :: rest).length : Int) - 1 - ((second :: rest).length : Int)
          = exponent := by
      simp only [List.length_cons]
      omega
    have hread := @readDecimal?_point [first] (second :: rest) _ _ (Or.inl (by simp))
      (by simpa using hdigits first List.mem_cons_self)
      (fun c hc => hdigits c (List.mem_cons_of_mem _ hc)) hpower
    rw [hexponent] at hread
    exact hread

/-- **The text of a magnitude reads as the shortest decimal**, or as an integer with the zeros of
its exponent among its digits. -/
theorem readDecimal?_printOrdinal (ordinal : Nat) :
    readDecimal? (printOrdinal ordinal) = some (Decimal.shortest ordinal) ∨
    ∃ digits e, Decimal.shortest ordinal = ⟨digits, .ofNat e⟩ ∧
      readDecimal? (printOrdinal ordinal) = some ⟨digits * Nat.pow 10 e, 0⟩ := by
  have hne : Nat.toDigits 10 (Decimal.shortest ordinal).digits ≠ [] := Nat.toDigits_ne_nil
  have hdigits : ∀ c ∈ Nat.toDigits 10 (Decimal.shortest ordinal).digits, c.isDigit = true :=
    fun c hc => Nat.isDigit_of_mem_toDigits (by decide) (by decide) hc
  unfold printOrdinal
  generalize Decimal.shortest ordinal = d at *
  obtain ⟨digits, exponent⟩ := d
  have hspell := ofDigits_toDigits digits
  dsimp only at *
  split
  · cases exponent with
    | ofNat e =>
      refine Or.inr ⟨digits, e, rfl, ?_⟩
      rw [readDecimal?_positional_ofNat hne hdigits e, hspell]
    | negSucc e =>
      left
      rw [readDecimal?_positional_negSucc hdigits e, hspell]
  · left
    rw [readDecimal?_scientific hne hdigits exponent, hspell]

/-- **The text of a magnitude reads as a decimal that rounds to it.** -/
theorem exists_readDecimal?_printOrdinal {ordinal : Nat} (hpos : 0 < ordinal)
    (hfinite : ordinal < Binary64.infinityOrdinal) :
    ∃ d, readDecimal? (printOrdinal ordinal) = some d ∧ d.ordinal = ordinal := by
  have hshortest := Decimal.ordinal_shortest hpos (Nat.le_of_lt hfinite)
  obtain hread | ⟨digits, e, heq, hread⟩ := readDecimal?_printOrdinal ordinal
  · exact ⟨_, hread, hshortest⟩
  · rw [heq] at hshortest
    refine ⟨_, hread, ?_⟩
    rw [Decimal.ordinal_mul_pow (hshortest ▸ hfinite)]
    exact hshortest

/-! ## Signs and blanks -/

/-- A character of a text is a sign or stands behind the sign. -/
theorem mem_splitSign {text : List Char} {c : Char} (h : c ∈ text) :
    c = '-' ∨ c = '+' ∨ c ∈ (splitSign text).2 := by
  unfold splitSign
  split
  · exact (List.mem_cons.mp h).imp_right Or.inr
  · exact Or.inr (List.mem_cons.mp h)
  · exact Or.inr (Or.inr h)

/-- A character of a text is a point, or a digit of the fraction, or stands behind the fraction. -/
theorem mem_splitFraction {text : List Char} {c : Char} (h : c ∈ text) :
    c = '.' ∨ c ∈ (splitFraction text).1 ∨ c ∈ (splitFraction text).2 := by
  unfold splitFraction
  split
  · refine (List.mem_cons.mp h).imp_right fun hrest => ?_
    rwa [← List.mem_append, List.takeWhile_append_dropWhile]
  · exact Or.inr (Or.inr h)

/-- A fraction has only digits. -/
theorem isDigit_of_mem_splitFraction {text : List Char} {c : Char}
    (h : c ∈ (splitFraction text).1) :
    c.isDigit = true := by
  unfold splitFraction at h
  split at h
  · exact List.all_eq_true.mp List.all_takeWhile c h
  · exact absurd h List.not_mem_nil

/-- No exponent has a blank in it. -/
theorem isBlank_of_readExponent? {text : List Char} {exponent : Int}
    (h : readExponent? text = some exponent) :
    ∀ c ∈ text, Text.isBlank c = false := by
  cases text with
  | nil => simp
  | cons mark rest =>
    obtain ⟨hmark, hdigits⟩ := of_readExponent?_cons h
    intro c hc
    obtain rfl | hc := List.mem_cons.mp hc
    · obtain rfl | rfl := hmark <;> decide
    · obtain rfl | rfl | hc := mem_splitSign hc
      · decide
      · decide
      · exact Text.isBlank_of_isDigit (hdigits c hc)

/-- **No numeral has a blank in it.** -/
theorem isBlank_of_readDecimal? {text : List Char} {d : Decimal} (h : readDecimal? text = some d) :
    ∀ c ∈ text, Text.isBlank c = false := by
  have hsplit := @List.takeWhile_append_dropWhile _ Char.isDigit text
  simp only [readDecimal?, Option.ite_none_left_eq_some, Option.map_eq_some_iff] at h
  obtain ⟨-, exponent, hexponent, -⟩ := h
  intro c hc
  rw [← hsplit, List.mem_append] at hc
  obtain hwhole | hrest := hc
  · exact Text.isBlank_of_isDigit (List.all_eq_true.mp List.all_takeWhile c hwhole)
  · obtain rfl | hfraction | hrest := mem_splitFraction hrest
    · decide
    · exact Text.isBlank_of_isDigit (isDigit_of_mem_splitFraction hfraction)
    · exact isBlank_of_readExponent? hexponent c hrest

/-- A numeral has no sign of its own. -/
theorem splitSign_of_readDecimal? {text : List Char} {d : Decimal}
    (h : readDecimal? text = some d) :
    splitSign text = (false, text) := by
  unfold splitSign
  split
  · simp [readDecimal?, splitFraction, List.takeWhile, List.dropWhile] at h
  · simp [readDecimal?, splitFraction, List.takeWhile, List.dropWhile] at h
  · rfl

/-- A literal is read behind its sign, once the blanks around it are gone. -/
theorem read_of_readOrdinal? {text : String} {negative : Bool} {rest : List Char} {ordinal : Nat}
    (hsign : splitSign (Text.trim text.toList) = (negative, rest))
    (h : readOrdinal? rest = some ordinal) :
    read text = Binary64.ofOrdinal negative ordinal := by
  unfold read
  rw [hsign]
  dsimp only
  rw [h]

/-- **A numeral behind its sign** reads as the number of this sign nearest to the decimal. -/
theorem read_signed {text : List Char} {d : Decimal} (h : readDecimal? text = some d)
    (negative : Bool) :
    read (String.ofList (if negative then '-' :: text else text))
      = Binary64.ofOrdinal negative d.ordinal := by
  have hblank := isBlank_of_readDecimal? h
  have hordinal : readOrdinal? text = some d.ordinal := by
    unfold readOrdinal?
    rw [h]
  refine read_of_readOrdinal? ?_ hordinal
  rw [String.toList_ofList]
  cases negative with
  | true =>
    have hsigned : ∀ c ∈ '-' :: text, Text.isBlank c = false :=
      List.forall_mem_cons.mpr ⟨by decide, hblank⟩
    rw [if_pos rfl, Text.trim_of_forall hsigned]
    rfl
  | false =>
    rw [if_neg Bool.false_ne_true, Text.trim_of_forall hblank]
    exact splitSign_of_readDecimal? h

/-! ## Numbers -/

/-- The names of the infinities read back. -/
theorem read_print_of_isInfinite {x : Binary64} (h : x.isInfinite = true) : read (print x) = x := by
  have hordinal : x.ordinal = Binary64.infinityOrdinal := eq_of_beq h
  have hself := x.ofOrdinal_ordinal
  rw [hordinal] at hself
  cases hsign : x.negative with
  | true =>
    rw [← hself, hsign]
    decide
  | false =>
    rw [← hself, hsign]
    decide

/-- The digits of a finite number other than zero read back. -/
theorem read_print_of_isFinite {x : Binary64} (hnan : ¬ x.isNaN = true)
    (hinfinite : ¬ x.isInfinite = true) (hzero : ¬ x.isZero = true) : read (print x) = x := by
  obtain ⟨hpos, hfinite⟩ := Binary64.ordinal_bounds hnan hinfinite hzero
  obtain ⟨d, hread, hordinal⟩ := exists_readDecimal?_printOrdinal hpos hfinite
  calc read (print x)
      = read (String.ofList
          (if x.negative then '-' :: printOrdinal x.ordinal else printOrdinal x.ordinal)) := by
        rw [print, if_neg hnan, if_neg hinfinite, if_neg hzero]
    _ = Binary64.ofOrdinal x.negative d.ordinal := read_signed hread x.negative
    _ = x := by rw [hordinal, x.ofOrdinal_ordinal]

/-- **Printed numbers read back.** Every finite number other than zero and both infinities come back
bit for bit; both zeros come back as the positive one, and words that are not numbers as the quiet
one. -/
theorem read_print (x : Binary64) :
    read (print x)
      = if x.isNaN then Binary64.nan else if x.isZero then Binary64.zero false else x := by
  by_cases hnan : x.isNaN = true
  · rw [if_pos hnan, print, if_pos hnan]
    decide
  · rw [if_neg hnan]
    by_cases hzero : x.isZero = true
    · have hfinite : ¬ x.isInfinite = true := by simp [Binary64.isInfinite_of_isZero hzero]
      rw [if_pos hzero, print, if_neg hnan, if_neg hfinite, if_pos hzero]
      decide
    · rw [if_neg hzero]
      by_cases hinfinite : x.isInfinite = true
      · exact read_print_of_isInfinite hinfinite
      · exact read_print_of_isFinite hnan hinfinite hzero

/-- The number of least magnitude has a single digit. -/
example : print ⟨0x8000000000000001⟩ = "-5e-324" := by decide +kernel

end Numeral

end StackMachine
