import StackMachine.Binary64.Basic

/-! # Rounding to double precision

Every correctly rounded operation is an exact quotient followed by one rounding, so rounding is one
function on quotients of natural numbers.

* **`roundQuotient`** rounds a quotient to the nearest natural number, a half to the even one.
* **`Binary64.nearest`** is the ordinal of the double nearest to a quotient of units, ties to even,
  with infinity for what lies beyond the largest finite number. -/

namespace StackMachine

/-- The natural number nearest to `num / den`; a quotient halfway between two goes to the even
one. -/
def roundQuotient (num den : Nat) : Nat :=
  let quotient := num / den
  let rest := num % den
  if 2 * rest < den then quotient
  else if den < 2 * rest then quotient + 1
  else if quotient % 2 = 0 then quotient else quotient + 1

namespace Binary64

/-- The ordinal nearest to the magnitude `num / den`, counted in units of `2 ^ (-1074)`.

The quotient keeps fifty-three leading bits: with `shift` lower bits dropped, the rounded
significand and the shift spell the ordinal as `shift * 2 ^ 52 + significand`, whether the result is
subnormal, normal, or carried into the next power of two. -/
def nearest (num den : Nat) : Nat :=
  let shift := (num / den).log2 - 52
  let significand := roundQuotient num (den * Nat.pow 2 shift)
  min (shift * leadingWeight + significand) infinityOrdinal

end Binary64

end StackMachine
