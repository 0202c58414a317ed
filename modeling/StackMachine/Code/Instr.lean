import StackMachine.Code.Opcode
import StackMachine.Code.Operand

/-! # Instructions

A well-formed instruction: a load of a pool entry, whose index fits in two bytes by its type, or an
arithmetic operation.

* **`Instr.ofOperands`** checks the operands of an opcode and makes the instruction.
* **`Instr.encode`** gives its bytes.
* **`Instr.line`** gives its line in a listing.
* **`Located`** is an instruction at its place in the code. -/

namespace StackMachine

/-- An **instruction**. -/
inductive Instr where
  /-- Push the pool entry with an index. -/
  | load (index : UInt16)
  /-- Apply an operation to the two topmost values. -/
  | apply (op : Arith)
deriving DecidableEq, Inhabited

namespace Instr

/-- The opcode of an instruction. -/
def opcode : Instr → Opcode
  | .load _ => .constant
  | .apply op => .arith op

/-- The operands of an instruction. -/
def operands : Instr → List Nat
  | .load index => [index.toNat]
  | .apply _ => []

/-- The instruction of an opcode with operands; their number is checked before their size. -/
def ofOperands : Opcode → List Nat → Except InstrError Instr
  | .constant, [index] =>
    if index < UInt16.size then .ok (.load (UInt16.ofNat index))
    else .error (.operandOverflow .constant index 2)
  | .arith op, [] => .ok (.apply op)
  | op, operands => .error (.operandCount op op.layout.widths.length operands.length)

/-- The bytes of an instruction: the opcode, then each operand in the width its layout gives. -/
def encode (i : Instr) : List UInt8 :=
  i.opcode.byte :: (i.operands.zip i.opcode.layout.widths).flatMap fun field =>
    bigEndian field.2 field.1

/-- The number of bytes of an instruction. -/
def size (i : Instr) : Nat := i.opcode.layout.size

/-- The line of an instruction in a listing: the mnemonic and the operands, separated by blanks. -/
def line (i : Instr) : String :=
  " ".intercalate (i.opcode.mnemonic :: i.operands.map fun operand => toString operand)

/-- An instruction is as long as its layout says. -/
@[simp] theorem length_encode (i : Instr) : i.encode.length = i.size := by
  rcases i with index | (_ | _ | _ | _) <;> rfl

/-- An instruction is made again from its opcode and operands. -/
theorem ofOperands_operands (i : Instr) : ofOperands i.opcode i.operands = .ok i := by
  cases i with
  | load index =>
    have h : index.toNat < UInt16.size := index.toNat_lt_size
    simp only [opcode, operands, ofOperands, if_pos h, UInt16.ofNat_toNat]
  | apply op => rfl

end Instr

/-- An instruction with the offset of its first byte. -/
structure Located where
  /-- Where the instruction starts. -/
  offset : Nat
  /-- The instruction. -/
  instr : Instr
deriving DecidableEq

/-- The bytes of a sequence of instructions. -/
def encodeAll (instrs : List Instr) : List UInt8 := instrs.flatMap Instr.encode

end StackMachine
