import StackMachine.Binary64.Round

/-! # Decimal magnitudes

A decimal magnitude is a natural number of digits scaled by a power of ten. It is exact; rounding it
to double precision is the only place where precision is lost.

* **`Decimal.ordinal`** is the ordinal of the double nearest to a decimal magnitude. -/

namespace StackMachine

/-- The **decimal magnitude** `digits * 10 ^ exponent`. -/
structure Decimal where
  /-- The digits, read as a natural number. -/
  digits : Nat
  /-- The power of ten that scales them. -/
  exponent : Int
deriving DecidableEq

namespace Decimal

/-- The ordinal of the double nearest to a decimal magnitude, ties to even.

Exponents beyond the range of doubles are answered without computing the power: a nonzero multiple
of `10 ^ 310` is past the largest finite number, and `digits / 10 ^ e` is under half the least
positive number as soon as `3 * e` reaches `1076` bits more than the digits have, because
`2 ^ 3 ≤ 10`. -/
def ordinal (d : Decimal) : Nat :=
  if d.digits = 0 then 0
  else match d.exponent with
    | .ofNat e =>
      if 310 ≤ e then Binary64.infinityOrdinal
      else Binary64.nearest (d.digits * Nat.pow 10 e * Binary64.unitsPerOne) 1
    | .negSucc e =>
      if d.digits.log2 + 1076 ≤ 3 * (e + 1) then 0
      else Binary64.nearest (d.digits * Binary64.unitsPerOne) (Nat.pow 10 (e + 1))

end Decimal

end StackMachine
