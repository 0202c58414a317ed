/-! # Operands in big-endian order

* **`bigEndian`** writes a number in a given count of bytes, most significant first;
  **`ofBigEndian`** reads it.
* **`readWord?`** reads an operand anywhere in a byte sequence, with offset and width as 64-bit
  words.
* **`readOperand?`** reads it at an offset of an array, with the end in unbounded numbers. -/

namespace StackMachine

/-- The lowest `width` bytes of a number, most significant first. -/
def bigEndian : (width : Nat) → (value : Nat) → List UInt8
  | 0, _ => []
  | width + 1, value => UInt8.ofNat (value / Nat.pow 256 width) :: bigEndian width value

/-- The number that a byte sequence spells, most significant byte first. -/
def ofBigEndian (bytes : List UInt8) : Nat :=
  bytes.foldl (fun value byte => 256 * value + byte.toNat) 0

/-- The sum of two words; there is none when it does not fit in a word. -/
def addWords? (a b : UInt64) : Option UInt64 :=
  let sum := a + b
  -- a sum that wraps around falls below its summands
  if a ≤ sum then some sum else none

/-- The bytes from the offset `start` up to the offset `stop`, which has to lie in the sequence and
not before `start`. -/
def slice? (bytes : List UInt8) (start stop : UInt64) : Option (List UInt8) :=
  if start ≤ stop ∧ stop.toNat ≤ bytes.length then some (bytes.extract start.toNat stop.toNat)
  else none

/-- A word with one more byte at its low end; its highest byte is shifted out. -/
def shiftIn (word : UInt64) (byte : UInt8) : UInt64 := word <<< 8 ||| byte.toUInt64

/-- **Reads the operand of `width` bytes at `offset`**: the bytes of the field are shifted in one by
one. -/
def readWord? (bytes : List UInt8) (offset width : UInt64) : Option UInt64 :=
  (addWords? offset width).bind fun stop =>
    (slice? bytes offset stop).map fun field => field.foldl shiftIn 0

/-- **Reads the operand of `width` bytes at `offset`** of an array, as a loop over its bytes does,
whose offsets are unbounded numbers. There is none when the field reaches past the end. -/
def readOperand? (bytes : Array UInt8) (offset width : Nat) : Option Nat :=
  if offset + width ≤ bytes.size then
    some ((bytes.extract offset (offset + width)).foldl shiftIn 0).toNat
  else none

/-- An operand has the width it is written in. -/
@[simp] theorem length_bigEndian (width value : Nat) : (bigEndian width value).length = width := by
  induction width with
  | zero => rfl
  | succ width ih => simp [bigEndian, ih]

end StackMachine
