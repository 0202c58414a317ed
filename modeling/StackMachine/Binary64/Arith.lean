import StackMachine.Binary64.Round

/-! # Double-precision arithmetic

Sum, difference, product and quotient, each the exact result rounded once by `Binary64.nearest`,
with the standard rules for infinities, signed zeros and words that are not numbers.

* **`Binary64.add`**, **`Binary64.sub`**, **`Binary64.mul`**, **`Binary64.div`**. -/

namespace StackMachine

namespace Binary64

/-- The sum. An exact zero is positive unless both operands are negative zeros. -/
def add (x y : Binary64) : Binary64 :=
  if x.isNaN || y.isNaN then nan
  else if x.isInfinite then
    if y.isInfinite && x.negative != y.negative then nan else x
  else if y.isInfinite then y
  else
    let sum := x.scaled + y.scaled
    if sum = 0 then zero (x.negative && y.negative)
    else ofOrdinal (decide (sum < 0)) (nearest sum.natAbs 1)

/-- The difference: the sum with the opposite of the second operand. -/
def sub (x y : Binary64) : Binary64 :=
  if y.isNaN then nan else add x y.neg

/-- The product. The product of a zero and an infinity is not a number. -/
def mul (x y : Binary64) : Binary64 :=
  let sign := x.negative != y.negative
  if x.isNaN || y.isNaN then nan
  else if x.isInfinite then
    if y.isZero then nan else infinity sign
  else if y.isInfinite then
    if x.isZero then nan else infinity sign
  else ofOrdinal sign (nearest (units x.ordinal * units y.ordinal) unitsPerOne)

/-- The quotient. Two zeros or two infinities have none; a nonzero number over zero is infinite. -/
def div (x y : Binary64) : Binary64 :=
  let sign := x.negative != y.negative
  if x.isNaN || y.isNaN then nan
  else if x.isInfinite then
    if y.isInfinite then nan else infinity sign
  else if y.isInfinite then zero sign
  else if y.isZero then
    if x.isZero then nan else infinity sign
  else ofOrdinal sign (nearest (units x.ordinal * unitsPerOne) (units y.ordinal))

end Binary64

end StackMachine
