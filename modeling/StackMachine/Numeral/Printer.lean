import StackMachine.Binary64.Basic
import StackMachine.Decimal.Shortest

/-! # Printing numbers

Numbers print with the fewest digits that read back. Magnitudes from `10 ^ (-6)` up to but not
including `10 ^ 21` are positional, without a fraction when they are integral; all others have one
digit before the point and a signed exponent. Both zeros print as `0`.

* **`Numeral.positional`** and **`Numeral.scientific`** lay out the digits of a decimal.
* **`Numeral.print`** is the text of a number. -/

namespace StackMachine

namespace Numeral

/-- Positional layout of digits scaled by a power of ten: padded with zeros on the right, cut by a
point, or led by zeros after a point. -/
def positional (digits : List Char) : Int → List Char
  | .ofNat e => digits ++ List.replicate e '0'
  | .negSucc e =>
    if e + 1 < digits.length then
      digits.take (digits.length - (e + 1)) ++ '.' :: digits.drop (digits.length - (e + 1))
    else '0' :: '.' :: (List.replicate (e + 1 - digits.length) '0' ++ digits)

/-- Exponent layout of digits scaled by a power of ten: the point follows the first digit, and is
left out when no other digit follows; the exponent always has a sign. -/
def scientific (digits : List Char) (exponent : Int) : List Char :=
  let power := exponent + (digits.length : Int) - 1
  let mantissa := match digits with
    | first :: second :: rest => first :: '.' :: second :: rest
    | few => few
  mantissa ++ 'e' :: (if power < 0 then '-' else '+') :: Nat.toDigits 10 power.natAbs

/-- The least ordinal printed positionally: that of the double nearest to `10 ^ (-6)`. -/
def positionalStart : Nat := (Decimal.mk 1 (-6)).ordinal

/-- The least ordinal above those printed positionally: that of the double nearest to `10 ^ 21`. -/
def positionalEnd : Nat := (Decimal.mk 1 21).ordinal

/-- The text of a finite nonzero magnitude. -/
def printOrdinal (ordinal : Nat) : List Char :=
  let d := Decimal.shortest ordinal
  let digits := Nat.toDigits 10 d.digits
  if positionalStart ≤ ordinal && ordinal < positionalEnd then positional digits d.exponent
  else scientific digits d.exponent

/-- **The text of a number.** -/
def print (x : Binary64) : String :=
  if x.isNaN then "NaN"
  else if x.isInfinite then (if x.negative then "-Infinity" else "Infinity")
  else if x.isZero then "0"
  else
    let magnitude := printOrdinal x.ordinal
    String.ofList (if x.negative then '-' :: magnitude else magnitude)

end Numeral

end StackMachine
