import Mathlib.Data.Nat.Digits.Defs
import StackMachine.Proofs.Code.Operands

/-! # Operands in word arithmetic

`readWord?` adds an offset and a width that may be any words, and the sum can wrap around. The
reading is still the one in unbounded numbers, so that a loop over the bytes may move its cursor in
these:

* **`addWords?_eq_some_iff`** — a sum of words is found iff it is a word itself.
* **`map_toNat_readWord?`** — in a sequence whose length is a word, `readWord?` reads what
  `readOperand?` says.
* **`bigEndian_eq_map_shifts`** — the bytes of a word are its shifts by whole bytes, the widest
  shift first.
* **`readWord_outcome`** — what is read at any offset in any width, and that an operand is read back
  where it stands. -/

namespace StackMachine

/-! ## Sums and slices -/

/-- A sum of words wraps around iff it falls below its first summand. -/
theorem le_add_iff_toNat (a b : UInt64) : a ≤ a + b ↔ a.toNat + b.toNat < UInt64.size := by
  have ha : a.toNat < 2 ^ 64 := a.toNat_lt
  have hb : b.toNat < 2 ^ 64 := b.toNat_lt
  rw [UInt64.le_iff_toNat_le, UInt64.toNat_add]
  show _ ↔ _ < 2 ^ 64
  omega

/-- **A sum of words is found iff it is a word**, and then it is the sum of the numbers. -/
theorem addWords?_eq_some_iff {a b sum : UInt64} :
    addWords? a b = some sum ↔ sum.toNat = a.toNat + b.toNat := by
  have hsum : sum.toNat < UInt64.size := sum.toNat_lt_size
  have hadd : (a + b).toNat = (a.toNat + b.toNat) % UInt64.size := UInt64.toNat_add a b
  rw [addWords?, Option.ite_none_right_eq_some, le_add_iff_toNat, Option.some.injEq,
    ← UInt64.toNat_inj, hadd]
  constructor
  · rintro ⟨hword, hvalue⟩
    rw [← hvalue, Nat.mod_eq_of_lt hword]
  · intro hvalue
    rw [← hvalue]
    exact ⟨hsum, Nat.mod_eq_of_lt hsum⟩

/-- There is no sum of words iff it is too large for a word. -/
theorem addWords?_eq_none_iff {a b : UInt64} :
    addWords? a b = none ↔ UInt64.size ≤ a.toNat + b.toNat := by
  simp [addWords?, le_add_iff_toNat]

/-- The slice of a given width is cut out of the sequence if the sequence reaches so far. -/
theorem slice?_of_toNat_eq {start stop : UInt64} {width : Nat}
    (hstop : stop.toNat = start.toNat + width) (bytes : List UInt8) :
    slice? bytes start stop
      = if start.toNat + width ≤ bytes.length then some ((bytes.drop start.toNat).take width)
        else none := by
  have hordered : start ≤ stop := by
    rw [UInt64.le_iff_toNat_le, hstop]
    exact Nat.le_add_right _ _
  simp only [slice?, hordered, true_and, hstop, List.extract_eq_take_drop, Nat.add_sub_cancel_left]

/-! ## The number that bytes spell -/

/-- The number that bytes spell has them as its digits to the base 256, the last byte as the lowest
digit. -/
theorem ofBigEndian_eq_ofDigits (bytes : List UInt8) :
    ofBigEndian bytes = Nat.ofDigits 256 (bytes.map UInt8.toNat).reverse := by
  rw [Nat.ofDigits_eq_foldr, List.foldr_reverse, List.foldl_map, ofBigEndian]
  simp only [Nat.cast_id, Nat.add_comm]

/-! ## Reading in words -/

/-- **Reading in words is reading in unbounded numbers**, in a sequence whose length is a word. -/
theorem map_toNat_readWord? {bytes : List UInt8} (hlength : bytes.length < UInt64.size)
    (offset width : UInt64) :
    (readWord? bytes offset width).map UInt64.toNat
      = readOperand? bytes.toArray offset.toNat width.toNat := by
  cases hsum : addWords? offset width with
  | none =>
    -- an end that is no word lies behind the sequence
    have hlarge := addWords?_eq_none_iff.mp hsum
    rw [readWord?, hsum, readOperand?_toArray, if_neg (by omega)]
    rfl
  | some stop =>
    have hstop := addWords?_eq_some_iff.mp hsum
    rw [readWord?, hsum, Option.bind_some, slice?_of_toNat_eq hstop, readOperand?_toArray]
    by_cases hinside : offset.toNat + width.toNat ≤ bytes.length
    · rw [if_pos hinside, if_pos hinside, Option.map_some, Option.map_some,
        toNat_foldl_shiftIn_zero]
    · rw [if_neg hinside, if_neg hinside]
      rfl

/-! ## The bytes of a word -/

/-- A byte has eight bits. -/
theorem pow_bytes (width : Nat) : Nat.pow 256 width = 2 ^ (8 * width) :=
  (Nat.pow_mul 2 8 width).symm

/-- **The bytes of a word are its shifts by whole bytes**, the widest shift first. -/
theorem bigEndian_eq_map_shifts {width : Nat} (hwidth : width ≤ 8) (word : UInt64) :
    bigEndian width word.toNat
      = (List.range width).reverse.map fun shift =>
        (word >>> UInt64.ofNat (8 * shift)).toUInt8 := by
  induction width with
  | zero => rfl
  | succ width ih =>
    -- a shift is taken modulo the bits of a word, and all of these are smaller
    have hamount : (UInt64.ofNat (8 * width)).toNat % 64 = 8 * width := by
      rw [UInt64.toNat_ofNat']
      omega
    have hbyte : UInt8.ofNat (word.toNat / Nat.pow 256 width)
        = (word >>> UInt64.ofNat (8 * width)).toUInt8 := by
      rw [← UInt8.toNat_inj, UInt8.toNat_ofNat', UInt64.toNat_toUInt8, UInt64.toNat_shiftRight,
        hamount, Nat.shiftRight_eq_div_pow, pow_bytes]
    rw [bigEndian, hbyte, ih (Nat.le_of_succ_le hwidth), List.range_succ, List.reverse_append,
      List.map_append]
    rfl

/-! ## Any offset and any width -/

/-- **Reading an operand at any offset in any width**, in a sequence whose length is a word. There
is no operand iff the field reaches past the end, also where the sum of offset and width wraps
around; otherwise the operand is the number whose digits to the base 256 are the bytes of the field,
up to the size of a word. An operand that fits in at most eight bytes is written as its shifts by
whole bytes, and is read back from there, whatever stands before and behind. -/
theorem readWord_outcome {bytes : List UInt8} (hlength : bytes.length < UInt64.size)
    (offset width : UInt64) :
    (readWord? bytes offset width = none ↔ bytes.length < offset.toNat + width.toNat) ∧
    (offset.toNat + width.toNat ≤ bytes.length →
      (readWord? bytes offset width).map UInt64.toNat
        = some (Nat.ofDigits 256
          (((bytes.drop offset.toNat).take width.toNat).map UInt8.toNat).reverse % 2 ^ 64)) ∧
    (∀ (value : UInt64) (before after : List UInt8), width.toNat ≤ 8 →
      value.toNat < 2 ^ (8 * width.toNat) → before.length = offset.toNat →
      bigEndian width.toNat value.toNat
          = (List.range width.toNat).reverse.map
            (fun shift => (value >>> UInt64.ofNat (8 * shift)).toUInt8) ∧
        (bytes = before ++ (bigEndian width.toNat value.toNat ++ after) →
          readWord? bytes offset width = some value)) := by
  have hread := map_toNat_readWord? hlength offset width
  refine ⟨?_, ?_, ?_⟩
  · rw [← Option.map_eq_none_iff, hread, readOperand?_eq_none_iff]
  · intro hinside
    rw [hread, readOperand?_toArray, if_pos hinside, ofBigEndian_eq_ofDigits]
    rfl
  · intro value before after hwidth hvalue hoffset
    refine ⟨bigEndian_eq_map_shifts hwidth value, ?_⟩
    rintro rfl
    rw [← pow_bytes] at hvalue
    rw [← hoffset, readOperand?_bigEndian hvalue value.toNat_lt_size] at hread
    obtain ⟨word, hword, heq⟩ := Option.map_eq_some_iff.mp hread
    rw [hword, UInt64.toNat_inj.mp heq]

/-- In ten bytes: a field of nine bytes keeps the lowest eight, an operand of two bytes stands at
the end, and a field whose end wraps around to an offset inside is none. -/
theorem readWord_outcome_wrapping_end :
    let bytes : List UInt8 := [0x10, 0xff, 0x01, 0x02, 0x03, 0x04, 0x05, 0x06, 0x12, 0x34]
    bytes.length < UInt64.size ∧
      (readWord? bytes 1 9).map UInt64.toNat = some 0x0102030405061234 ∧
      readWord? bytes 8 2 = some 0x1234 ∧
      readWord? bytes 0xffffffffffffffff 2 = none := by
  intro bytes
  have hlength : bytes.length < UInt64.size := by decide
  refine ⟨hlength, ?_, ?_, ?_⟩
  · rw [(readWord_outcome hlength 1 9).2.1 (by decide)]
    decide
  · have hwritten :=
      (readWord_outcome hlength 8 2).2.2 0x1234 (bytes.take 8) [] (by decide) (by decide) rfl
    exact hwritten.2 (by decide)
  · exact (readWord_outcome hlength 0xffffffffffffffff 2).1.mpr (by decide)

end StackMachine
