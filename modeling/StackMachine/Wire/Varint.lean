/-! # Variable-length numbers

Numbers on the wire are split into groups of seven bits, lowest first; every byte but the last has
its high bit set. Writing is minimal. Reading accepts longer forms up to a limit.

* **`Wire.writeVarint`** writes a number.
* **`Wire.readVarint`** reads one of at most a given number of bytes, the last of which is bounded.
* **`WireError`** collects the ways in which reading can fail. -/

namespace StackMachine

/-- The ways in which **reading fails**. -/
inductive WireError where
  /-- The data end before the value does. -/
  | endOfData
  /-- A variable-length number does not end within its limit. -/
  | unterminatedNumber
  /-- A truth value is neither `0` nor `1`. -/
  | badBoolean
  /-- The bytes of a text are not valid UTF-8. -/
  | badText
  /-- No kind of value has the tag. -/
  | unknownTag
deriving DecidableEq

/-- The wording of a read failure. -/
def WireError.message (e : WireError) : String :=
  "bytecode serialization failed: " ++ match e with
    | .endOfData => "Hit the end of buffer, expected more data"
    | .unterminatedNumber =>
      "Found a varint that didn't terminate. Is the usize too big for this platform?"
    | .badBoolean => "Found a bool that wasn't 0 or 1"
    | .badText => "Tried to parse invalid utf-8"
    | .unknownTag => "Serde Deserialization Error"

namespace Wire

/-- The outcome of reading a value from the front of a byte sequence: the value and the bytes after
it. -/
abbrev Read (α : Type) : Type := Except WireError (α × List UInt8)

/-- Goes on reading behind a value that was read. -/
def andThen {α β : Type} (first : Read α) (next : α → List UInt8 → Read β) : Read β :=
  match first with
  | .ok (a, rest) => next a rest
  | .error e => .error e

/-- The minimal form of a number. -/
def writeVarint (n : Nat) : List UInt8 :=
  if n < 128 then [UInt8.ofNat n]
  else UInt8.ofNat (n % 128 + 128) :: writeVarint (n / 128)
termination_by n
decreasing_by omega

/-- Reads a number of at most `more + 1` bytes; if it takes all of them, the last is at most
`lastMax`. -/
def readVarint (lastMax : Nat) : (more : Nat) → List UInt8 → Read Nat
  | _, [] => .error .endOfData
  | 0, byte :: rest =>
    if byte.toNat ≤ lastMax then .ok (byte.toNat, rest) else .error .unterminatedNumber
  | more + 1, byte :: rest =>
    if byte.toNat < 128 then .ok (byte.toNat, rest)
    else andThen (readVarint lastMax more rest) fun high rest' =>
      .ok (byte.toNat - 128 + 128 * high, rest')

/-- Reads a length or count, a 64-bit number: at most ten bytes, the tenth at most `1`. -/
def readLength (bytes : List UInt8) : Read Nat := readVarint 1 9 bytes

/-- Reads a tag, a 32-bit number: at most five bytes, the fifth at most `15`. -/
def readTag (bytes : List UInt8) : Read Nat := readVarint 15 4 bytes

end Wire

end StackMachine
