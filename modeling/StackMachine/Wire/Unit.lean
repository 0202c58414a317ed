import StackMachine.CodeUnit.Basic
import StackMachine.Wire.Varint

/-! # Code units on the wire

A unit is written as the length of its code, the code, the number of its constants and the
constants. A constant is a tag followed by its content: a number as eight bytes, lowest first; a
text as its length and its UTF-8 bytes; a truth value as one byte; null as nothing.

* **`CodeUnit.toWire`** writes a unit.
* **`CodeUnit.ofWire`** reads one from the front of a byte sequence and ignores what follows. -/

namespace StackMachine

namespace Wire

/-- A length followed by that many bytes. -/
def writeBlob (bytes : List UInt8) : List UInt8 := writeVarint bytes.length ++ bytes

/-- The UTF-8 bytes of a text. -/
def textBytes (s : String) : List UInt8 := s.toUTF8.data.toList

/-- A constant: its tag and its content. -/
def writeValue : Value → List UInt8
  | .number x => writeVarint 0 ++ (bigEndian 8 x.bits.toNat).reverse
  | .text s => writeVarint 1 ++ writeBlob (textBytes s)
  | .boolean b => writeVarint 2 ++ [if b then 1 else 0]
  | .null => writeVarint 3

/-- Takes exactly `count` bytes off the front. -/
def take (count : Nat) (bytes : List UInt8) : Read (List UInt8) :=
  let field := bytes.take count
  if field.length = count then .ok (field, bytes.drop count) else .error .endOfData

/-- Reads a length and that many bytes. -/
def readBlob (bytes : List UInt8) : Read (List UInt8) :=
  andThen (readLength bytes) fun length rest => take length rest

/-- Reads a text; its length is met before its bytes are looked at. -/
def readText (bytes : List UInt8) : Read String :=
  andThen (readBlob bytes) fun field rest =>
    match String.fromUTF8? ⟨field.toArray⟩ with
    | some s => .ok (s, rest)
    | none => .error .badText

/-- Reads eight bytes as a number. -/
def readNumber (bytes : List UInt8) : Read Binary64 :=
  andThen (take 8 bytes) fun field rest =>
    .ok (⟨UInt64.ofNat (ofBigEndian field.reverse)⟩, rest)

/-- Reads one byte as a truth value. -/
def readBoolean : List UInt8 → Read Bool
  | [] => .error .endOfData
  | byte :: rest =>
    if byte = 0 then .ok (false, rest)
    else if byte = 1 then .ok (true, rest)
    else .error .badBoolean

/-- Reads the content of a constant with a given tag. -/
def readContent (tag : Nat) (bytes : List UInt8) : Read Value :=
  match tag with
  | 0 => andThen (readNumber bytes) fun x rest => .ok (.number x, rest)
  | 1 => andThen (readText bytes) fun s rest => .ok (.text s, rest)
  | 2 => andThen (readBoolean bytes) fun b rest => .ok (.boolean b, rest)
  | 3 => .ok (.null, bytes)
  | _ => .error .unknownTag

/-- Reads a constant. -/
def readValue (bytes : List UInt8) : Read Value :=
  andThen (readTag bytes) readContent

/-- Reads `count` constants behind those already read. -/
def readValues : (count : Nat) → Array Value → List UInt8 → Read (Array Value)
  | 0, found, bytes => .ok (found, bytes)
  | count + 1, found, bytes =>
    match readValue bytes with
    | .ok (v, rest) => readValues count (found.push v) rest
    | .error e => .error e

/-- Reads a unit. -/
def readUnit (bytes : List UInt8) : Read CodeUnit :=
  andThen (readBlob bytes) fun code rest =>
    andThen (readLength rest) fun count rest' =>
      andThen (readValues count #[] rest') fun pool rest'' =>
        .ok (⟨code, pool⟩, rest'')

end Wire

namespace CodeUnit

/-- The **wire form** of a unit. -/
def toWire (u : CodeUnit) : List UInt8 :=
  Wire.writeBlob u.code ++ (Wire.writeVarint u.pool.size ++ u.pool.toList.flatMap Wire.writeValue)

/-- The unit at the front of a byte sequence; bytes after it do not matter. -/
def ofWire (bytes : List UInt8) : Except WireError CodeUnit := (Wire.readUnit bytes).map Prod.fst

end CodeUnit

end StackMachine
