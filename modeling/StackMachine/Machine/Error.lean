import StackMachine.Code.Opcode
import StackMachine.Value

/-! # Faults of the machine

* **`Phase`** is where a machine stands in its life.
* **`RuntimeError`** collects the faults of a run. -/

namespace StackMachine

/-- The **phase** of a machine. A machine runs at most once. -/
inductive Phase where
  | ready
  | running
  | halted
  | faulted
deriving DecidableEq

/-- The name of a phase. -/
def Phase.name : Phase → String
  | .ready => "Ready"
  | .running => "Running"
  | .halted => "Halted"
  | .faulted => "Faulted"

/-- A **fault** of a run. -/
inductive RuntimeError where
  /-- An operation has no meaning on operands of these kinds. -/
  | typeMismatch (op : Arith) (left right : Kind)
  /-- A number is divided by zero. -/
  | divideByZero
  /-- The byte at an offset is no opcode. -/
  | unknownOpcode (byte : UInt8) (offset : Nat)
  /-- A push finds every slot taken. -/
  | stackOverflow (capacity : Nat)
  /-- A pop finds no value. -/
  | stackUnderflow
  /-- A load refers past the end of the pool. -/
  | constantOutOfRange (index size : Nat)
  /-- The code ends inside the instruction at an offset. -/
  | truncatedInstruction (offset : Nat)
  /-- The machine has run before. -/
  | invalidPhase (phase : Phase)
deriving DecidableEq

/-- The wording of a fault. -/
def RuntimeError.message (e : RuntimeError) : String :=
  "runtime error: " ++ match e with
    | .typeMismatch op left right =>
      s!"cannot perform '{op.symbol}' operation between {left.name} and {right.name}"
    | .divideByZero => "division by zero"
    | .unknownOpcode byte offset => s!"unknown opcode 0x{Text.hexByte byte} at offset {offset}"
    | .stackOverflow capacity => s!"stack overflow (capacity {capacity})"
    | .stackUnderflow => "attempted to pop from an empty stack"
    | .constantOutOfRange index size => s!"constant index {index} is outside the pool of {size}"
    | .truncatedInstruction offset => s!"instruction at offset {offset} is missing operand bytes"
    | .invalidPhase phase => s!"vm cannot run from state {phase.name}"

end StackMachine
