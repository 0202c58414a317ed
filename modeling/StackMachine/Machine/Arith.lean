import StackMachine.Binary64.Arith
import StackMachine.Machine.Error

/-! # Arithmetic on values

Addition adds numbers and joins texts; the other operations take numbers only. Division by either
zero is a fault of its own.

* **`Arith.apply`** is the result of an operation on a left and a right operand. -/

namespace StackMachine

namespace Arith

/-- The **result** of an operation, or the fault it ends in. -/
def apply : Arith → Value → Value → Except RuntimeError Value
  | .add, .number x, .number y => .ok (.number (x.add y))
  | .add, .text s, .text t => .ok (.text (s ++ t))
  | .subtract, .number x, .number y => .ok (.number (x.sub y))
  | .multiply, .number x, .number y => .ok (.number (x.mul y))
  | .divide, .number x, .number y =>
    if y.isZero then .error .divideByZero else .ok (.number (x.div y))
  | op, left, right => .error (.typeMismatch op left.kind right.kind)

end Arith

end StackMachine
