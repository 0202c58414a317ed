import StackMachine.Text.Hex

/-! # Opcodes

Every instruction starts with one opcode byte; its layout says how many operands follow and how wide
they are.

* **`Opcode.byte`** and **`Opcode.ofByte?`** tie opcodes to their bytes.
* **`Opcode.layout`** gives the mnemonic and the operand widths.
* **`InstrError`** collects the ways in which an instruction can be malformed. -/

namespace StackMachine

/-- An **arithmetic operation** on the two topmost values of the stack. -/
inductive Arith where
  | add
  | subtract
  | multiply
  | divide
deriving DecidableEq

/-- The sign of an arithmetic operation in diagnostics. -/
def Arith.symbol : Arith → String
  | .add => "+"
  | .subtract => "-"
  | .multiply => "*"
  | .divide => "/"

/-- The **opcode** of an instruction. -/
inductive Opcode where
  /-- Push a constant of the pool. -/
  | constant
  /-- Replace the two topmost values by the result of an operation. -/
  | arith (op : Arith)
deriving DecidableEq

/-- The **layout** of an instruction: its mnemonic and the widths of its operands in bytes. -/
structure Layout where
  /-- The name of the instruction in listings. -/
  mnemonic : String
  /-- The width of each operand, in order. -/
  widths : List Nat

/-- The length of an encoded instruction, opcode byte included. -/
def Layout.size (layout : Layout) : Nat := layout.widths.foldl (fun size width => size + width) 1

namespace Opcode

/-- All opcodes. -/
def all : List Opcode :=
  [.constant, .arith .add, .arith .subtract, .arith .multiply, .arith .divide]

/-- The byte of an opcode. -/
def byte : Opcode → UInt8
  | .constant => 0x01
  | .arith .add => 0x10
  | .arith .subtract => 0x11
  | .arith .divide => 0x12
  | .arith .multiply => 0x13

/-- The layout of an opcode's instructions. Only a constant has an operand, a pool index of two
bytes. -/
def layout : Opcode → Layout
  | .constant => ⟨"Constant", [2]⟩
  | .arith .add => ⟨"Add", []⟩
  | .arith .subtract => ⟨"Subtract", []⟩
  | .arith .multiply => ⟨"Multiply", []⟩
  | .arith .divide => ⟨"Divide", []⟩

/-- The width of the operand of a constant, the first one of its layout. -/
def indexWidth : Nat := constant.layout.widths.head (by decide)

/-- The mnemonic of an opcode. -/
def mnemonic (op : Opcode) : String := op.layout.mnemonic

/-- The opcode with a given byte. -/
def ofByte? (b : UInt8) : Option Opcode := all.find? fun op => op.byte == b

/-- The opcode with a given mnemonic. -/
def ofMnemonic? (mnemonic : String) : Option Opcode := all.find? fun op => op.mnemonic == mnemonic

/-- An instruction has at least its opcode byte. -/
theorem size_layout_pos (op : Opcode) : 0 < op.layout.size := by
  rcases op with _ | (_ | _ | _ | _) <;> decide

/-- Every opcode is recognised by its byte. -/
@[simp] theorem ofByte?_byte (op : Opcode) : ofByte? op.byte = some op := by
  rcases op with _ | (_ | _ | _ | _) <;> rfl

end Opcode

/-- The ways in which an instruction can be **malformed**. -/
inductive InstrError where
  /-- No opcode has this byte. -/
  | unknownOpcode (byte : UInt8)
  /-- The number of operands differs from what the layout asks. -/
  | operandCount (op : Opcode) (expected found : Nat)
  /-- An operand is too large for its width. -/
  | operandOverflow (op : Opcode) (operand width : Nat)
  /-- The code ends inside the instruction at an offset. -/
  | truncated (op : Opcode) (offset : Nat)
deriving DecidableEq

/-- The wording of an instruction error. -/
def InstrError.message : InstrError → String
  | .unknownOpcode byte => s!"unknown opcode 0x{Text.hexByte byte}"
  | .operandCount op expected found =>
    s!"{op.mnemonic} expects {expected} operand(s), got {found}"
  | .operandOverflow op operand width =>
    s!"operand {operand} of {op.mnemonic} does not fit in {width} byte(s)"
  | .truncated op offset => s!"{op.mnemonic} at offset {offset} is missing operand bytes"

/-- The opcode with a given byte, or the error that names the byte. -/
def Opcode.ofByte (b : UInt8) : Except InstrError Opcode :=
  match ofByte? b with
  | some op => .ok op
  | none => .error (.unknownOpcode b)

end StackMachine
