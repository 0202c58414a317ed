import StackMachine.Binary64.Basic
import StackMachine.Decimal.Basic
import StackMachine.Text.Blank

/-! # Reading number literals

A number literal is trimmed of blanks at both ends and then read as an optional sign followed by a
name (`inf`, `infinity` or `nan` in any letter case) or by a numeral: digits with an optional point,
at least one digit on either side of it, and an optional exponent. Everything else reads as "not a
number".

* **`Numeral.readDecimal?`** reads an unsigned numeral as an exact decimal magnitude.
* **`Numeral.read`** reads a literal as the nearest double, ties to even. -/

namespace StackMachine

namespace Numeral

/-- Takes an optional sign off the front; the flag tells whether it is a minus sign. -/
def splitSign : List Char → Bool × List Char
  | '-' :: rest => (true, rest)
  | '+' :: rest => (false, rest)
  | text => (false, text)

/-- The natural number that a sequence of decimal digits spells. -/
def ofDigits (digits : List Char) : Nat :=
  digits.foldl (fun value digit => 10 * value + (digit.toNat - '0'.toNat)) 0

/-- Reads a whole text as an exponent mark, an optional sign and at least one digit; no text at all
is the exponent zero. -/
def readExponent? : List Char → Option Int
  | [] => some 0
  | mark :: rest =>
    let (negative, digits) := splitSign rest
    if (mark == 'e' || mark == 'E') && !digits.isEmpty && digits.all Char.isDigit then
      some (if negative then -(ofDigits digits : Int) else ofDigits digits)
    else none

/-- Takes an optional fraction, a point and any number of digits, off the front. -/
def splitFraction : List Char → List Char × List Char
  | '.' :: rest => (rest.takeWhile Char.isDigit, rest.dropWhile Char.isDigit)
  | text => ([], text)

/-- Reads a whole text as an unsigned numeral: the fraction digits continue the whole ones, and each
of them lowers the exponent by one. -/
def readDecimal? (text : List Char) : Option Decimal :=
  let whole := text.takeWhile Char.isDigit
  let (fraction, rest) := splitFraction (text.dropWhile Char.isDigit)
  if whole.isEmpty && fraction.isEmpty then none
  else (readExponent? rest).map fun exponent =>
    ⟨ofDigits (whole ++ fraction), exponent - (fraction.length : Int)⟩

/-- Reads a whole text as the name of a number that no numeral denotes, in any letter case. -/
def readNamed? (text : List Char) : Option Nat :=
  let name := text.map Char.toLower
  if name = ['i', 'n', 'f'] || name = ['i', 'n', 'f', 'i', 'n', 'i', 't', 'y'] then
    some Binary64.infinityOrdinal
  else if name = ['n', 'a', 'n'] then some Binary64.nan.ordinal
  else none

/-- Reads an unsigned literal as the ordinal of the number it denotes. -/
def readOrdinal? (text : List Char) : Option Nat :=
  match readDecimal? text with
  | some d => some d.ordinal
  | none => readNamed? text

/-- **Reads a number literal.** The sign goes to the result, also to zero; a text that is no literal
reads as "not a number". -/
def read (text : String) : Binary64 :=
  let (negative, rest) := splitSign (Text.trim text.toList)
  match readOrdinal? rest with
  | some ordinal => Binary64.ofOrdinal negative ordinal
  | none => Binary64.nan

end Numeral

end StackMachine
