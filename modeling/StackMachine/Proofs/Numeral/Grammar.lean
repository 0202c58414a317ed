import Mathlib
import StackMachine.Proofs.Decimal.Value
import StackMachine.Proofs.Numeral.RoundTrip

/-! # The grammar of number literals

Literals are specified by a grammar with the exact rational number that each derivation denotes,
without reference to how they are read: blanks around a core, an optional sign, and a numeral or a
name of infinity. The reader is sound and complete for the grammar, part by part, and what it
returns for a numeral is the nearest number to what the numeral denotes.

* **`Text.IsStripped`** — the core of a text; `Text.isStripped_isBlank_iff` says that trimming finds
  it.
* **`Numeral.Denotes`** and **`Numeral.DenotesInfinity`** — signed numerals with their values, and
  signed names of infinity.
* **`Numeral.IsNumeral.exists_readDecimal?`** and **`Numeral.isNumeral_of_readDecimal?`** — the
  reader of unsigned numerals accepts the numerals and nothing else, with their values.
* **`Numeral.read_of_denotes`**, **`Numeral.read_of_denotesInfinity`** and **`Numeral.isNaN_read`**
  — what is read from each kind of core.
* **`Numeral.read_outcome`** — what is read from any text. -/

namespace StackMachine

/-! ## Characters at the ends -/

namespace Text

variable {p : Char → Bool} {text core : List Char}

/-- The text without the characters of a class at its two ends. -/
def strip (p : Char → Bool) (text : List Char) : List Char :=
  ((text.dropWhile p).reverse.dropWhile p).reverse

/-- A text is **stripped** of a class of characters to a core if only such characters stand around
the core, and none at its ends. -/
structure IsStripped (p : Char → Bool) (text core : List Char) : Prop where
  /-- Only characters of the class stand around the core. -/
  surrounded : ∃ before after, text = before ++ (core ++ after) ∧ (∀ c ∈ before, p c = true) ∧
    ∀ c ∈ after, p c = true
  /-- The core does not start with one. -/
  head : ∀ c ∈ core.head?, p c = false
  /-- The core does not end with one. -/
  last : ∀ c ∈ core.getLast?, p c = false

/-- Dropping from the front stops at the first character to keep. -/
theorem dropWhile_append {before rest : List Char} (hbefore : ∀ c ∈ before, p c = true)
    (hrest : ∀ c ∈ rest.head?, p c = false) : (before ++ rest).dropWhile p = rest := by
  rw [List.dropWhile_append_of_pos hbefore]
  cases rest with
  | nil => rfl
  | cons c rest => exact List.dropWhile_cons_of_neg (by simp [hrest c rfl])

/-- What is left after dropping from the front starts with a character to keep. -/
theorem head?_dropWhile (p : Char → Bool) (text : List Char) :
    ∀ c ∈ (text.dropWhile p).head?, p c = false := by
  intro c hc
  have hhead := List.head?_dropWhile_not p text
  rw [Option.mem_def.mp hc] at hhead
  exact hhead

/-- Stripping leaves the core. -/
theorem IsStripped.strip_eq (h : IsStripped p text core) : strip p text = core := by
  obtain ⟨before, after, rfl, hbefore, hafter⟩ := h.surrounded
  have hreverse : ∀ c ∈ after.reverse, p c = true := fun c hc => hafter c (List.mem_reverse.mp hc)
  have hlast : ∀ c ∈ core.reverse.head?, p c = false := by
    rw [List.head?_reverse]
    exact h.last
  unfold strip
  cases core with
  | nil =>
    have hall := List.forall_mem_append.mpr ⟨hbefore, hafter⟩
    rw [List.nil_append, List.dropWhile_eq_nil_iff.mpr hall]
    rfl
  | cons c core =>
    have hhead : ∀ c' ∈ (c :: core ++ after).head?, p c' = false := h.head
    rw [dropWhile_append hbefore hhead, List.reverse_append, dropWhile_append hreverse hlast,
      List.reverse_reverse]

/-- Stripping takes characters of the class away at both ends, and all of them. -/
theorem isStripped_strip (p : Char → Bool) (text : List Char) :
    IsStripped p text (strip p text) := by
  have htext := @List.takeWhile_append_dropWhile _ p text
  have hhead := head?_dropWhile p text
  unfold strip
  generalize text.dropWhile p = rest at *
  have hrest : (rest.reverse.dropWhile p).reverse ++ (rest.reverse.takeWhile p).reverse = rest := by
    rw [← List.reverse_append, List.takeWhile_append_dropWhile, List.reverse_reverse]
  refine ⟨⟨text.takeWhile p, (rest.reverse.takeWhile p).reverse, ?_, ?_, ?_⟩, fun c hc => ?_, ?_⟩
  · rw [hrest, htext]
  · exact List.all_eq_true.mp List.all_takeWhile
  · intro c hc
    exact List.all_eq_true.mp List.all_takeWhile c (List.mem_reverse.mp hc)
  · -- what is left of the rest starts as the rest does
    refine hhead c ?_
    rw [← hrest, List.head?_append, Option.mem_def.mp hc]
    rfl
  · rw [List.getLast?_reverse]
    exact head?_dropWhile p _

/-- **A text has one core**, and trimming leaves the core of a text with blanks around it. -/
theorem isStripped_isBlank_iff : IsStripped isBlank text core ↔ core = trim text :=
  ⟨fun h => h.strip_eq.symm, fun h => h ▸ isStripped_strip isBlank text⟩

end Text

namespace Numeral

/-! ## Signs, digits and exponents -/

/-- An optional **sign**, with a flag for a minus sign. -/
inductive IsSign : List Char → Bool → Prop where
  /-- No sign. -/
  | absent : IsSign [] false
  /-- A plus sign. -/
  | plus : IsSign ['+'] false
  /-- A minus sign. -/
  | minus : IsSign ['-'] true

/-- A text of decimal **digits** only. -/
def AllDigits (text : List Char) : Prop := ∀ c ∈ text, c.isDigit = true

/-- The natural number that digits spell, the last one in the place of ones. -/
def placeValue (digits : List Char) : Nat :=
  Nat.ofDigits 10 (digits.reverse.map fun c => c.toNat - '0'.toNat)

/-- An optional **exponent**: a mark, an optional sign and at least one digit. -/
inductive IsExponent : List Char → Int → Prop where
  /-- No exponent. -/
  | absent : IsExponent [] 0
  /-- A mark with what it scales by. -/
  | marked {mark : Char} {sign digits : List Char} {negative : Bool}
      (hmark : mark = 'e' ∨ mark = 'E') (hsign : IsSign sign negative) (hne : digits ≠ [])
      (hdigits : AllDigits digits) :
      IsExponent (mark :: (sign ++ digits))
        (if negative then -(placeValue digits : Int) else placeValue digits)

/-- A **significand**: digits with an optional point, at least one digit on either side of it. -/
inductive IsSignificand : List Char → ℚ → Prop where
  /-- Digits without a point. -/
  | whole {digits : List Char} (hne : digits ≠ []) (hdigits : AllDigits digits) :
      IsSignificand digits (placeValue digits)
  /-- Digits around a point. -/
  | point {whole fraction : List Char} (hne : whole ≠ [] ∨ fraction ≠ []) (hwhole : AllDigits whole)
      (hfraction : AllDigits fraction) :
      IsSignificand (whole ++ '.' :: fraction)
        (placeValue whole + placeValue fraction / 10 ^ fraction.length)

/-- An unsigned **numeral**: a significand scaled by a power of ten. -/
inductive IsNumeral : List Char → ℚ → Prop where
  /-- A significand and an exponent. -/
  | scaled {significand exponent : List Char} {q : ℚ} {power : Int}
      (hsignificand : IsSignificand significand q) (hexponent : IsExponent exponent power) :
      IsNumeral (significand ++ exponent) (q * 10 ^ power)

/-- A text **denotes** a magnitude with a sign: an optional sign before a numeral. -/
inductive Denotes : List Char → Bool → ℚ → Prop where
  /-- A sign and a numeral. -/
  | signed {sign numeral : List Char} {negative : Bool} {q : ℚ} (hsign : IsSign sign negative)
      (hnumeral : IsNumeral numeral q) : Denotes (sign ++ numeral) negative q

/-- A text spells a name in any letter case, given the small letters of the name. -/
def Spells (text name : List Char) : Prop :=
  List.Forall₂ (fun c letter => c = letter ∨ c = letter.toUpper) text name

/-- A text spells one of the **names of infinity**. -/
def SpellsInfinity (text : List Char) : Prop :=
  Spells text ['i', 'n', 'f'] ∨ Spells text ['i', 'n', 'f', 'i', 'n', 'i', 't', 'y']

/-- A text **denotes infinity** with a sign: an optional sign before a name. -/
inductive DenotesInfinity : List Char → Bool → Prop where
  /-- A sign and a name. -/
  | signed {sign name : List Char} {negative : Bool} (hsign : IsSign sign negative)
      (hname : SpellsInfinity name) :
      DenotesInfinity (sign ++ name) negative

/-- The digits are read as they are spelled. -/
theorem ofDigits_eq_placeValue (digits : List Char) : ofDigits digits = placeValue digits := by
  unfold placeValue
  induction digits using List.reverseRecOn with
  | nil => rfl
  | append_singleton digits c ih =>
    rw [ofDigits, List.foldl_append, List.reverse_append]
    simp only [List.foldl_cons, List.foldl_nil, List.reverse_singleton, List.singleton_append,
      List.map_cons, Nat.ofDigits_cons, ← ih, ofDigits]
    ring

/-- Digits behind others push them up. -/
theorem placeValue_append (digits digits' : List Char) :
    placeValue (digits ++ digits')
      = placeValue digits * 10 ^ digits'.length + placeValue digits' := by
  unfold placeValue
  rw [List.reverse_append, List.map_append, Nat.ofDigits_append, List.length_map,
    List.length_reverse]
  ring

/-! ## Reading follows the grammar -/

/-- A sign is split off what has no sign of its own. -/
theorem splitSign_append {sign rest : List Char} {negative : Bool} (hsign : IsSign sign negative)
    (hrest : splitSign rest = (false, rest)) : splitSign (sign ++ rest) = (negative, rest) := by
  cases hsign with
  | absent => exact hrest
  | plus => rfl
  | minus => rfl

/-- What is split off is a sign. -/
theorem exists_isSign (text : List Char) :
    ∃ sign, IsSign sign (splitSign text).1 ∧ text = sign ++ (splitSign text).2 := by
  unfold splitSign
  split
  · exact ⟨['-'], .minus, rfl⟩
  · exact ⟨['+'], .plus, rfl⟩
  · exact ⟨[], .absent, rfl⟩

/-- Digits have no sign of their own. -/
theorem AllDigits.splitSign_eq {digits : List Char} (h : AllDigits digits) :
    splitSign digits = (false, digits) := by
  unfold splitSign
  split
  · exact absurd (h '-' List.mem_cons_self) (by decide)
  · exact absurd (h '+' List.mem_cons_self) (by decide)
  · rfl

/-- **Exponents are read as the grammar says.** -/
theorem readExponent?_eq_some_iff {text : List Char} {power : Int} :
    readExponent? text = some power ↔ IsExponent text power := by
  constructor
  · intro h
    cases text with
    | nil =>
      obtain rfl : 0 = power := Option.some.inj h
      exact .absent
    | cons mark rest =>
      simp only [readExponent?, Option.ite_none_right_eq_some, Bool.and_eq_true, Bool.or_eq_true,
        beq_iff_eq, Bool.not_eq_true', List.isEmpty_eq_false_iff, List.all_eq_true,
        Option.some.injEq] at h
      obtain ⟨⟨⟨hmark, hne⟩, hdigits⟩, hpower⟩ := h
      obtain ⟨sign, hsign, hrest⟩ := exists_isSign rest
      have hmarked := IsExponent.marked hmark hsign hne hdigits
      rwa [← hrest, ← ofDigits_eq_placeValue, hpower] at hmarked
  · intro h
    cases h with
    | absent => rfl
    | marked hmark hsign hne hdigits =>
      have hsplit := splitSign_append hsign (AllDigits.splitSign_eq hdigits)
      simp only [readExponent?, hsplit, ofDigits_eq_placeValue, Option.ite_none_right_eq_some,
        Bool.and_eq_true, Bool.or_eq_true, beq_iff_eq, Bool.not_eq_true', List.isEmpty_eq_false_iff,
        List.all_eq_true, and_true]
      exact ⟨⟨hmark, hne⟩, hdigits⟩

/-- The value of digits around a point, read as one row of digits. -/
theorem value_point (whole fraction : List Char) (power : Int) :
    (Decimal.mk (ofDigits (whole ++ fraction)) (power - (fraction.length : Int))).value
      = ((placeValue whole : ℚ) + placeValue fraction / 10 ^ fraction.length) * 10 ^ power := by
  rw [Decimal.value, ofDigits_eq_placeValue, placeValue_append, zpow_sub₀ (by norm_num),
    zpow_natCast]
  push_cast
  field_simp

/-- **A numeral is read as the decimal of its value.** -/
theorem IsNumeral.exists_readDecimal? {text : List Char} {q : ℚ} (h : IsNumeral text q) :
    ∃ d, readDecimal? text = some d ∧ d.value = q := by
  obtain ⟨hsignificand, hexponent⟩ := h
  have hread := readExponent?_eq_some_iff.mpr hexponent
  cases hsignificand with
  | whole hne hdigits =>
    refine ⟨_, readDecimal?_whole hne hdigits hread, ?_⟩
    rw [Decimal.value, ofDigits_eq_placeValue]
  | @point whole fraction hne hwhole hfraction =>
    refine ⟨_, ?_, value_point whole fraction _⟩
    rw [List.append_assoc, List.cons_append]
    exact readDecimal?_point hne hwhole hfraction hread

/-- A fraction is split off behind a point, and nothing is split off elsewhere. -/
theorem splitFraction_cases (text : List Char) :
    (AllDigits (splitFraction text).1 ∧
      text = '.' :: ((splitFraction text).1 ++ (splitFraction text).2)) ∨
    splitFraction text = ([], text) := by
  unfold splitFraction
  split
  · refine Or.inl ⟨List.all_eq_true.mp List.all_takeWhile, ?_⟩
    rw [List.takeWhile_append_dropWhile]
  · exact Or.inr rfl

/-- **What is read as a decimal is a numeral of its value.** -/
theorem isNumeral_of_readDecimal? {text : List Char} {d : Decimal}
    (h : readDecimal? text = some d) :
    IsNumeral text d.value := by
  have htext := @List.takeWhile_append_dropWhile _ Char.isDigit text
  have hwhole : AllDigits (text.takeWhile Char.isDigit) := List.all_eq_true.mp List.all_takeWhile
  simp only [readDecimal?, Option.ite_none_left_eq_some, Option.map_eq_some_iff, Bool.and_eq_true,
    List.isEmpty_iff, not_and_or] at h
  obtain ⟨hne, power, hread, rfl⟩ := h
  generalize text.takeWhile Char.isDigit = whole at *
  generalize text.dropWhile Char.isDigit = rest at *
  have hexponent := readExponent?_eq_some_iff.mp hread
  -- what follows the whole digits starts with a point, or all of it is the exponent
  obtain ⟨hfraction, hrest⟩ | hsplit := splitFraction_cases rest
  · generalize splitFraction rest = split at *
    have hnumeral := IsNumeral.scaled (.point hne hwhole hfraction) hexponent
    rw [← value_point, List.append_assoc, List.cons_append, ← hrest, htext] at hnumeral
    exact hnumeral
  · rw [hsplit] at hne hexponent ⊢
    have hnumeral := IsNumeral.scaled (.whole (hne.resolve_right fun h => h rfl) hwhole) hexponent
    rw [htext, ← ofDigits_eq_placeValue] at hnumeral
    rw [List.append_nil, List.length_nil, Nat.cast_zero, Int.sub_zero]
    exact hnumeral

/-- A signed numeral is read behind its sign. -/
theorem Denotes.exists_readDecimal? {text : List Char} {negative : Bool} {q : ℚ}
    (h : Denotes text negative q) :
    ∃ rest d, splitSign text = (negative, rest) ∧ readDecimal? rest = some d ∧ d.value = q := by
  obtain ⟨hsign, hnumeral⟩ := h
  obtain ⟨d, hread, hvalue⟩ := hnumeral.exists_readDecimal?
  exact ⟨_, d, splitSign_append hsign (splitSign_of_readDecimal? hread), hread, hvalue⟩

/-- What is read behind a sign is a signed numeral. -/
theorem denotes_of_readDecimal? {text : List Char} {d : Decimal}
    (h : readDecimal? (splitSign text).2 = some d) :
    Denotes text (splitSign text).1 d.value := by
  obtain ⟨sign, hsign, htext⟩ := exists_isSign text
  have hdenotes := Denotes.signed hsign (isNumeral_of_readDecimal? h)
  rwa [← htext] at hdenotes

/-! ## Names of infinity -/

/-- A character has a small letter as its lower case if it is the letter or its capital. -/
theorem toLower_eq_iff {c letter : Char} (h : letter.isLower = true) :
    c.toLower = letter ↔ c = letter ∨ c = letter.toUpper := by
  have hletter : letter.toLower = letter :=
    Char.toLower_eq_of_not_isUpper (Char.not_isUpper_of_isLower h)
  constructor
  · rintro rfl
    by_cases hupper : c.isUpper = true
    · right
      rw [Char.toUpper_toLower_eq_toUpper,
        Char.toUpper_eq_of_not_isLower (Char.not_isLower_of_isUpper hupper)]
    · exact Or.inl (Char.toLower_eq_of_not_isUpper hupper).symm
  · rintro (rfl | rfl)
    · exact hletter
    · rw [Char.toLower_toUpper_eq_toLower, hletter]

/-- A text spells a name exactly if its lower case is the name. -/
theorem map_toLower_eq_iff {text name : List Char} (h : ∀ letter ∈ name, letter.isLower = true) :
    text.map Char.toLower = name ↔ Spells text name := by
  unfold Spells
  induction name generalizing text with
  | nil => simp
  | cons letter name ih =>
    obtain ⟨hletter, hname⟩ := List.forall_mem_cons.mp h
    cases text with
    | nil => simp
    | cons c text => simp [toLower_eq_iff hletter, ih hname]

/-- **Names are read as the grammar says**: a name of infinity as infinity, any other as no number
at most. -/
theorem readNamed?_cases (text : List Char) :
    (SpellsInfinity text ∧ readNamed? text = some Binary64.infinityOrdinal) ∨
    (¬ SpellsInfinity text ∧ ∀ ordinal ∈ readNamed? text, ordinal = Binary64.nan.ordinal) := by
  have hname : (text.map Char.toLower = ['i', 'n', 'f'] ||
      text.map Char.toLower = ['i', 'n', 'f', 'i', 'n', 'i', 't', 'y']) = true ↔
        SpellsInfinity text := by
    rw [Bool.or_eq_true, decide_eq_true_eq, decide_eq_true_eq, map_toLower_eq_iff (by simp),
      map_toLower_eq_iff (by simp)]
    rfl
  simp only [readNamed?]
  split_ifs with hinfinity hnan
  · exact Or.inl ⟨hname.mp hinfinity, rfl⟩
  · exact Or.inr ⟨mt hname.mpr hinfinity, fun ordinal h => (Option.some.inj h).symm⟩
  · exact Or.inr ⟨mt hname.mpr hinfinity, fun ordinal h => absurd h (Option.not_mem_none ordinal)⟩

/-- A name of infinity starts with its first letter. -/
theorem SpellsInfinity.exists_cons {text : List Char} (h : SpellsInfinity text) :
    ∃ c rest, text = c :: rest ∧ (c = 'i' ∨ c = 'I') := by
  obtain h | h := h
  all_goals
    obtain ⟨c, rest, hc, -, rfl⟩ := List.forall₂_cons_right_iff.mp h
    exact ⟨c, rest, rfl, hc⟩

/-- **A name of infinity is read as infinity**: it has no sign of its own, and it is no numeral. -/
theorem SpellsInfinity.readOrdinal? {text : List Char} (h : SpellsInfinity text) :
    splitSign text = (false, text) ∧ readOrdinal? text = some Binary64.infinityOrdinal := by
  have hnamed := ((readNamed?_cases text).resolve_right fun hnot => hnot.1 h).2
  obtain ⟨c, rest, rfl, hc⟩ := h.exists_cons
  have hdecimal : readDecimal? (c :: rest) = none := by
    obtain rfl | rfl := hc <;> simp [readDecimal?, splitFraction, List.takeWhile, List.dropWhile]
  refine ⟨?_, ?_⟩
  · obtain rfl | rfl := hc <;> rfl
  · rw [Numeral.readOrdinal?, hdecimal]
    exact hnamed

/-! ## Literals -/

/-- **A signed numeral is read as the nearest number of its sign.** -/
theorem read_of_denotes {text : String} {negative : Bool} {q : ℚ}
    (h : Denotes (Text.trim text.toList) negative q) :
    (read text).negative = negative ∧ Binary64.IsNearest q (read text).ordinal := by
  obtain ⟨rest, d, hsplit, hread, rfl⟩ := h.exists_readDecimal?
  have hordinal : readOrdinal? rest = some d.ordinal := by rw [readOrdinal?, hread]
  have hnearest := d.isNearest_ordinal
  have hlt : d.ordinal < Binary64.signWeight := hnearest.le_infinity.trans_lt (by decide)
  rw [read_of_readOrdinal? hsplit hordinal, Binary64.negative_ofOrdinal hlt,
    Binary64.ordinal_ofOrdinal hlt]
  exact ⟨rfl, hnearest⟩

/-- A signed name of infinity is read behind its sign. -/
theorem DenotesInfinity.exists_readOrdinal? {text : List Char} {negative : Bool}
    (h : DenotesInfinity text negative) :
    ∃ rest, splitSign text = (negative, rest) ∧
      readOrdinal? rest = some Binary64.infinityOrdinal := by
  obtain ⟨hsign, hname⟩ := h
  obtain ⟨hsplit, hordinal⟩ := hname.readOrdinal?
  exact ⟨_, splitSign_append hsign hsplit, hordinal⟩

/-- **A signed name of infinity is read as the infinity of its sign.** -/
theorem read_of_denotesInfinity {text : String} {negative : Bool}
    (h : DenotesInfinity (Text.trim text.toList) negative) :
    read text = Binary64.infinity negative := by
  obtain ⟨rest, hsplit, hordinal⟩ := h.exists_readOrdinal?
  exact read_of_readOrdinal? hsplit hordinal

/-- **Everything else is read as not a number.** -/
theorem isNaN_read {text : String}
    (hnumeral : ∀ negative q, ¬ Denotes (Text.trim text.toList) negative q)
    (hinfinity : ∀ negative, ¬ DenotesInfinity (Text.trim text.toList) negative) :
    (read text).isNaN = true := by
  obtain ⟨sign, hsign, htext⟩ := exists_isSign (Text.trim text.toList)
  have hdecimal : readDecimal? (splitSign (Text.trim text.toList)).2 = none := by
    refine Option.eq_none_iff_forall_not_mem.mpr fun d hd => ?_
    exact hnumeral _ _ (denotes_of_readDecimal? hd)
  have hnamed : ∀ ordinal ∈ readNamed? (splitSign (Text.trim text.toList)).2,
      ordinal = Binary64.nan.ordinal := by
    refine ((readNamed?_cases _).resolve_left fun hname => ?_).2
    have hdenotes := DenotesInfinity.signed hsign hname.1
    rw [← htext] at hdenotes
    exact hinfinity _ hdenotes
  unfold read readOrdinal?
  generalize splitSign (Text.trim text.toList) = split at *
  obtain ⟨negative, rest⟩ := split
  dsimp only at *
  rw [hdecimal]
  dsimp only
  cases hread : readNamed? rest with
  | some ordinal =>
    rw [hnamed ordinal hread]
    cases negative <;> decide
  | none => exact (by decide : Binary64.nan.isNaN = true)

/-- **Reading follows the grammar.** Without the blanks around it, an optional sign before a numeral
is read as the number of this sign nearest to the exact value, ties to even: as infinity from half a
step past the largest finite number on, and as zero up to half the least positive one. An optional
sign before a name of infinity is read as this infinity, and everything else as not a number. -/
theorem read_outcome (text : String) :
    ∃ core, (∀ other, Text.IsStripped Text.isBlank text.toList other ↔ other = core) ∧
      (∀ negative q, Denotes core negative q →
        (read text).negative = negative ∧ Binary64.IsNearest q (read text).ordinal ∧
        ((read text).isInfinite = true ↔ 2 ^ 1024 - 2 ^ 970 ≤ q) ∧
        ((read text).isZero = true ↔ q ≤ 1 / 2 ^ 1075)) ∧
      (∀ negative, DenotesInfinity core negative → read text = Binary64.infinity negative) ∧
      ((∀ negative q, ¬ Denotes core negative q) → (∀ negative, ¬ DenotesInfinity core negative) →
        (read text).isNaN = true) := by
  refine ⟨Text.trim text.toList, fun other => Text.isStripped_isBlank_iff, fun negative q h => ?_,
    fun negative => read_of_denotesInfinity, isNaN_read⟩
  obtain ⟨hsign, hnearest⟩ := read_of_denotes h
  have hordinal : ∀ ordinal, (read text).ordinal = ordinal ↔ Binary64.IsNearest q ordinal :=
    fun ordinal => ⟨fun heq => heq ▸ hnearest, hnearest.unique⟩
  refine ⟨hsign, hnearest, ?_, ?_⟩
  · rw [← Binary64.isNearest_infinity_iff (by decide +kernel) (by decide +kernel), ← hordinal]
    exact beq_iff_eq
  · rw [← Binary64.isNearest_zero_iff (by decide +kernel), ← hordinal]
    exact beq_iff_eq

/-- A number halfway between two doubles behind blanks, a name of infinity in mixed letter case, and
another name. -/
theorem read_outcome_halfway :
    (Denotes "-9007199254740993".toList true 9007199254740993 ∧
      (read "\t -9007199254740993").negative = true ∧
      Binary64.IsNearest 9007199254740993 (read "\t -9007199254740993").ordinal) ∧
    (DenotesInfinity "+Inf".toList false ∧ read "+Inf" = Binary64.infinity false) ∧
      (read "-nan").isNaN = true := by
  refine ⟨?_, ?_, ?_⟩
  · have hdigits : AllDigits "9007199254740993".toList := by simp [AllDigits]
    have hsigned := Denotes.signed .minus (.scaled (.whole (by simp) hdigits) .absent)
    have hdenotes : Denotes "-9007199254740993".toList true 9007199254740993 := by
      simpa [placeValue, Nat.ofDigits] using hsigned
    obtain ⟨core, hcore, hnumeral, -, -⟩ := read_outcome "\t -9007199254740993"
    obtain rfl :=
      (hcore "-9007199254740993".toList).mp (Text.isStripped_isBlank_iff.mpr (by decide))
    obtain ⟨hsign, hnearest, -, -⟩ := hnumeral _ _ hdenotes
    exact ⟨hdenotes, hsign, hnearest⟩
  · have hinfinity : DenotesInfinity "+Inf".toList false :=
      .signed .plus (Or.inl (.cons (Or.inr rfl) (.cons (Or.inl rfl) (.cons (Or.inl rfl) .nil))))
    obtain ⟨core, hcore, -, hname, -⟩ := read_outcome "+Inf"
    obtain rfl := (hcore "+Inf".toList).mp (Text.isStripped_isBlank_iff.mpr (by decide))
    exact ⟨hinfinity, hname _ hinfinity⟩
  · obtain ⟨core, hcore, -, -, hnot⟩ := read_outcome "-nan"
    obtain rfl := (hcore "-nan".toList).mp (Text.isStripped_isBlank_iff.mpr (by decide))
    refine hnot (fun negative q h => ?_) fun negative h => ?_
    · obtain ⟨rest, d, hsplit, hread, -⟩ := h.exists_readDecimal?
      obtain ⟨-, rfl⟩ := Prod.mk.inj (hsplit.symm.trans (by decide : _ = (true, "nan".toList)))
      cases hread.symm.trans (by decide : readDecimal? "nan".toList = none)
    · obtain ⟨rest, hsplit, hordinal⟩ := h.exists_readOrdinal?
      obtain ⟨-, rfl⟩ := Prod.mk.inj (hsplit.symm.trans (by decide : _ = (true, "nan".toList)))
      exact absurd hordinal (by decide)

end Numeral

end StackMachine
