/-! # Hexadecimal text

Bytes in lower-case hexadecimal, two digits each, high half first.

* **`Text.hexByte`** writes one byte, **`Text.hexBytes`** a sequence of bytes. -/

namespace StackMachine

namespace Text

/-- The two lower-case hexadecimal digits of a byte, high half first. -/
def hexDigits (b : UInt8) : List Char :=
  [Nat.digitChar (b.toNat / 16), Nat.digitChar (b.toNat % 16)]

/-- A byte as two hexadecimal digits. -/
def hexByte (b : UInt8) : String := String.ofList (hexDigits b)

/-- A byte sequence as two hexadecimal digits per byte; the empty sequence is the empty text. -/
def hexBytes (bytes : List UInt8) : String := String.ofList (bytes.flatMap hexDigits)

end Text

end StackMachine
