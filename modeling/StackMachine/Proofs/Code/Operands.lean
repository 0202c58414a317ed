import StackMachine.Code.Operand

/-! # Operands and the numbers they spell

A number below `256 ^ width` and a sequence of `width` bytes determine each other. An operand is
read by shifting its bytes into a word, which from the ninth byte on loses the highest one.

* **`ofBigEndian_bigEndian`** — the bytes of a number spell what remains of it in their width.
* **`ofBigEndian_inj`** — sequences of one length that spell the same number are equal.
* **`toNat_shiftIn`** and **`toNat_foldl_shiftIn`** — one byte that is shifted in, and a whole
  field.
* **`readOperand?_append`** — reading the field that stands between other bytes. -/

namespace StackMachine

/-- Reading on from a number shifts it by the width of the bytes. -/
theorem foldl_bigEndian (start : Nat) (bytes : List UInt8) :
    bytes.foldl (fun value byte => 256 * value + byte.toNat) start
      = start * Nat.pow 256 bytes.length + ofBigEndian bytes := by
  induction bytes generalizing start with
  | nil => simp [ofBigEndian]
  | cons byte rest ih =>
    have hpow : Nat.pow 256 (byte :: rest).length = 256 * Nat.pow 256 rest.length :=
      Nat.mul_comm _ _
    have hread : ofBigEndian (byte :: rest)
        = byte.toNat * Nat.pow 256 rest.length + ofBigEndian rest := by
      rw [ofBigEndian, List.foldl_cons, ih, Nat.mul_zero, Nat.zero_add]
    rw [List.foldl_cons, ih, hread, hpow, Nat.add_mul, Nat.add_assoc, Nat.mul_comm 256 start,
      Nat.mul_assoc]

/-- The first byte is shifted by the width of the others. -/
theorem ofBigEndian_cons (byte : UInt8) (rest : List UInt8) :
    ofBigEndian (byte :: rest) = byte.toNat * Nat.pow 256 rest.length + ofBigEndian rest := by
  rw [ofBigEndian, List.foldl_cons, Nat.mul_zero, Nat.zero_add, foldl_bigEndian]

/-- A sequence of bytes spells a number within its width. -/
theorem ofBigEndian_lt (bytes : List UInt8) : ofBigEndian bytes < Nat.pow 256 bytes.length := by
  induction bytes with
  | nil => exact Nat.zero_lt_one
  | cons byte rest ih =>
    have hbyte : byte.toNat + 1 ≤ 256 := byte.toNat_lt_size
    have hpow : Nat.pow 256 (byte :: rest).length = 256 * Nat.pow 256 rest.length :=
      Nat.mul_comm _ _
    have hweight := Nat.mul_le_mul_right (Nat.pow 256 rest.length) hbyte
    rw [Nat.add_mul, Nat.one_mul] at hweight
    rw [ofBigEndian_cons, hpow]
    omega

/-- The first byte is the quotient by the width of the others. -/
theorem ofBigEndian_cons_div (byte : UInt8) (rest : List UInt8) :
    ofBigEndian (byte :: rest) / Nat.pow 256 rest.length = byte.toNat := by
  have hlt := ofBigEndian_lt rest
  rw [ofBigEndian_cons, Nat.mul_comm, Nat.mul_add_div (Nat.zero_lt_of_lt hlt), Nat.div_eq_of_lt hlt,
    Nat.add_zero]

/-- The other bytes spell the remainder. -/
theorem ofBigEndian_cons_mod (byte : UInt8) (rest : List UInt8) :
    ofBigEndian (byte :: rest) % Nat.pow 256 rest.length = ofBigEndian rest := by
  rw [ofBigEndian_cons, Nat.mul_comm, Nat.mul_add_mod, Nat.mod_eq_of_lt (ofBigEndian_lt rest)]

/-- **The bytes of a number spell what remains of it in their width.** -/
theorem ofBigEndian_bigEndian (width value : Nat) :
    ofBigEndian (bigEndian width value) = value % Nat.pow 256 width := by
  induction width with
  | zero => exact (Nat.mod_one value).symm
  | succ width ih =>
    have hsplit : value % Nat.pow 256 (width + 1)
        = value % Nat.pow 256 width + Nat.pow 256 width * (value / Nat.pow 256 width % 256) :=
          Nat.mod_pow_succ
    rw [bigEndian, ofBigEndian_cons, length_bigEndian, ih, UInt8.toNat_ofNat', hsplit, Nat.add_comm,
      Nat.mul_comm]

/-- **Sequences of one length that spell the same number are equal.** -/
theorem ofBigEndian_inj {first second : List UInt8} (hlength : first.length = second.length)
    (h : ofBigEndian first = ofBigEndian second) : first = second := by
  induction first generalizing second with
  | nil => exact (List.eq_nil_of_length_eq_zero hlength.symm).symm
  | cons byte rest ih =>
    cases second with
    | nil => cases hlength
    | cons byte' rest' =>
      have hrest : rest.length = rest'.length := Nat.succ.inj hlength
      have hfirst : byte = byte' := by
        rw [← UInt8.toNat_inj, ← ofBigEndian_cons_div byte rest, ← ofBigEndian_cons_div byte' rest',
          h, hrest]
      have hothers : ofBigEndian rest = ofBigEndian rest' := by
        rw [← ofBigEndian_cons_mod byte rest, ← ofBigEndian_cons_mod byte' rest', h, hrest]
      rw [hfirst, ih hrest hothers]

/-! ## Shifting bytes in -/

/-- **One byte that is shifted in**: the word is multiplied by 256, and what exceeds a word is
lost. -/
theorem toNat_shiftIn (word : UInt64) (byte : UInt8) :
    (shiftIn word byte).toNat = (256 * word.toNat + byte.toNat) % UInt64.size := by
  have hbyte : byte.toNat < 2 ^ 8 := byte.toNat_lt
  -- the lowest 56 bits of the word move up, so the lowest 8 bits are free for the byte
  have hshift : (word <<< 8).toNat = 2 ^ 8 * (word.toNat % 2 ^ 56) := by
    rw [UInt64.toNat_shiftLeft]
    show word.toNat <<< 8 % (2 ^ 8 * 2 ^ 56) = _
    rw [Nat.shiftLeft_eq, Nat.mul_comm, Nat.mul_mod_mul_left]
  rw [shiftIn, UInt64.toNat_or, hshift, UInt8.toNat_toUInt64, ← Nat.two_pow_add_eq_or_of_lt hbyte]
  show _ = _ % 2 ^ 64
  omega

/-- **A field that is shifted in** is read on from the word, as a number up to the size of a
word. -/
theorem toNat_foldl_shiftIn (field : List UInt8) (word : UInt64) :
    (field.foldl shiftIn word).toNat
      = field.foldl (fun value byte => 256 * value + byte.toNat) word.toNat % UInt64.size := by
  induction field generalizing word with
  | nil => exact (Nat.mod_eq_of_lt word.toNat_lt_size).symm
  | cons byte rest ih =>
    -- what the first shift loses is a multiple of the size,
    -- and stays one however far it is shifted on
    rw [List.foldl_cons, ih, toNat_shiftIn, List.foldl_cons, foldl_bigEndian, foldl_bigEndian]
    simp only [Nat.add_mod, Nat.mul_mod, Nat.mod_mod]

/-- Shifted into an empty word, a field gives the number it spells, up to the size of a word. -/
theorem toNat_foldl_shiftIn_zero (field : List UInt8) :
    (field.foldl shiftIn 0).toNat = ofBigEndian field % UInt64.size :=
  toNat_foldl_shiftIn field 0

/-! ## Reading an operand -/

/-- **What is read at an offset**: the number that the bytes of the field spell, up to the size of a
word. -/
theorem readOperand?_toArray (bytes : List UInt8) (offset width : Nat) :
    readOperand? bytes.toArray offset width
      = if offset + width ≤ bytes.length then
          some (ofBigEndian ((bytes.drop offset).take width) % UInt64.size)
        else none := by
  rw [readOperand?, List.size_toArray]
  simp only [List.extract_toArray, List.extract_eq_take_drop, Nat.add_sub_cancel_left,
    List.foldl_toArray, toNat_foldl_shiftIn_zero]

/-- **A field is read where it stands**, whatever stands before and behind it. -/
theorem readOperand?_append (before field after : List UInt8) :
    readOperand? (before ++ (field ++ after)).toArray before.length field.length
      = some (ofBigEndian field % UInt64.size) := by
  have hinside : before.length + field.length ≤ (before ++ (field ++ after)).length := by
    rw [← List.append_assoc, List.length_append, List.length_append]
    exact Nat.le_add_right _ _
  rw [readOperand?_toArray, if_pos hinside, List.drop_left, List.take_left]

/-- There is nothing to read iff the field reaches past the end. -/
theorem readOperand?_eq_none_iff {bytes : List UInt8} {offset width : Nat} :
    readOperand? bytes.toArray offset width = none ↔ bytes.length < offset + width := by
  simp [readOperand?]

/-- A number is read back from a field that is wide enough for it. -/
theorem readOperand?_bigEndian {width value : Nat} (hwidth : value < Nat.pow 256 width)
    (hword : value < UInt64.size) (before after : List UInt8) :
    readOperand? (before ++ (bigEndian width value ++ after)).toArray before.length width
      = some value := by
  have hread := readOperand?_append before (bigEndian width value) after
  rw [length_bigEndian, ofBigEndian_bigEndian, Nat.mod_eq_of_lt hwidth,
    Nat.mod_eq_of_lt hword] at hread
  exact hread

end StackMachine
