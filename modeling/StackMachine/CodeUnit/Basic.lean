import StackMachine.Code.Instr
import StackMachine.Value

/-! # Code units

A compiled unit: the bytes of its instructions and the pool of constants they refer to by position.
The pool only grows and never merges equal entries.

* **`CodeUnit.emit`** appends a checked instruction, **`CodeUnit.addConstant`** a pool entry.
* **`CodeUnit.equals`** compares units with the equality of the language on constants. -/

namespace StackMachine

/-- A **code unit**. -/
structure CodeUnit where
  /-- The bytes of the instructions. -/
  code : List UInt8
  /-- The constants, by index. -/
  pool : Array Value
deriving DecidableEq

namespace CodeUnit

/-- The unit without instructions and constants. -/
def empty : CodeUnit := ⟨[], #[]⟩

/-- Appends the instruction of an opcode with operands and tells the offset where it starts; a
malformed one is not appended. -/
def emit (u : CodeUnit) (op : Opcode) (operands : List Nat) : Except InstrError (Nat × CodeUnit) :=
  (Instr.ofOperands op operands).map fun i => (u.code.length, { u with code := u.code ++ i.encode })

/-- Appends a constant and tells its index. -/
def addConstant (u : CodeUnit) (v : Value) : Nat × CodeUnit :=
  (u.pool.size, { u with pool := u.pool.push v })

/-- **Equality of units**: the same bytes and equal constants place by place. -/
def equals (u w : CodeUnit) : Bool :=
  u.code == w.code && u.pool.isEqv w.pool Value.equals

end CodeUnit

end StackMachine
