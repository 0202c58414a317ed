/-! # Double-precision numbers as words

A double-precision number is a 64-bit word: a sign bit above 63 bits of magnitude. The magnitudes
are ordered as the natural numbers they spell, so the 63 low bits are called the **ordinal** of the
number: `0` is zero, `infinityOrdinal` is infinity, and everything above it is not a number.

* **`Binary64.units`** is the exact value of a finite ordinal, counted in units of `2 ^ (-1074)`,
  the least positive number.
* **`Binary64.equals`** is numeric equality: the two zeros are equal, and a number that is not a
  number differs from everything. -/

namespace StackMachine

/-- A **double-precision number**, kept as its 64-bit word. -/
structure Binary64 where
  /-- The word: sign, eleven exponent bits, fifty-two fraction bits. -/
  bits : UInt64
deriving DecidableEq, Inhabited

namespace Binary64

/-- The weight of the sign bit, `2 ^ 63`. -/
def signWeight : Nat := 0x8000000000000000

/-- The weight of the implicit leading bit of a significand, `2 ^ 52`. -/
def leadingWeight : Nat := 0x10000000000000

/-- The number one in units of `2 ^ (-1074)`. -/
@[irreducible] def unitsPerOne : Nat := Nat.pow 2 1074

/-- The ordinal of infinity: all exponent bits set, all fraction bits clear. -/
def infinityOrdinal : Nat := 2047 * leadingWeight

/-- The number with a given sign and ordinal. -/
def ofOrdinal (negative : Bool) (ordinal : Nat) : Binary64 :=
  ⟨UInt64.ofNat (if negative then signWeight + ordinal else ordinal)⟩

/-- Whether the sign bit is set. -/
def negative (x : Binary64) : Bool := signWeight ≤ x.bits.toNat

/-- The word without its sign bit; it orders the magnitudes. -/
def ordinal (x : Binary64) : Nat := x.bits.toNat % signWeight

/-- The quiet word that stands for "not a number". -/
def nan : Binary64 := ofOrdinal false (infinityOrdinal + leadingWeight / 2)

/-- Infinity with a given sign. -/
def infinity (negative : Bool) : Binary64 := ofOrdinal negative infinityOrdinal

/-- Zero with a given sign. -/
def zero (negative : Bool) : Binary64 := ofOrdinal negative 0

/-- Whether the word is not a number. -/
def isNaN (x : Binary64) : Bool := infinityOrdinal < x.ordinal

/-- Whether the number is one of the two infinities. -/
def isInfinite (x : Binary64) : Bool := x.ordinal == infinityOrdinal

/-- Whether the number is one of the two zeros. -/
def isZero (x : Binary64) : Bool := x.ordinal == 0

/-- The number with the opposite sign. -/
def neg (x : Binary64) : Binary64 := ofOrdinal (!x.negative) x.ordinal

/-- The exact magnitude of a finite ordinal, in units of `2 ^ (-1074)`. An exponent field of zero
has no implicit leading bit. -/
def units (ordinal : Nat) : Nat :=
  let exponent := ordinal / leadingWeight
  let fraction := ordinal % leadingWeight
  if exponent = 0 then fraction else (leadingWeight + fraction) * Nat.pow 2 (exponent - 1)

/-- The exact value of a finite number, in units of `2 ^ (-1074)`. -/
def scaled (x : Binary64) : Int :=
  if x.negative then -(units x.ordinal : Int) else units x.ordinal

/-- **Numeric equality**: equal words, or two zeros; nothing equals a word that is not a number. -/
def equals (x y : Binary64) : Bool :=
  !x.isNaN && !y.isNaN && (x.bits == y.bits || (x.isZero && y.isZero))

/-- Numeric equality is symmetric. -/
theorem equals_comm (x y : Binary64) : x.equals y = y.equals x := by
  simp only [equals, Bool.and_comm, BEq.comm]

/-- A number equals itself exactly when it is a number. -/
theorem equals_self (x : Binary64) : x.equals x = !x.isNaN := by
  simp [equals]

end Binary64

end StackMachine
