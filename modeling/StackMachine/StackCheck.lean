import StackMachine.CodeUnit.Basic

/-! # Static check of stack heights

The instructions have no jumps, so the height of the operand stack before each one is known without
running them.

* **`checkFrom`** goes through the bytes of some code, from one instruction to the next by the size
  of its layout.
* **`CodeUnit.check`** checks the pool references of a unit and follows the stack height from empty;
  it gives the greatest and the final height, or the first defect. -/

namespace StackMachine

/-- A **defect** that the check finds. -/
inductive CheckError where
  /-- The code cannot be decoded. -/
  | malformed (cause : InstrError)
  /-- The instruction at an offset refers past the end of the pool. -/
  | constantOutOfRange (offset index size : Nat)
  /-- The instruction at an offset needs more values than the stack holds. -/
  | underflow (offset : Nat) (op : Opcode) (needed : Nat)
deriving DecidableEq

/-- The wording of a defect. -/
def CheckError.message (e : CheckError) : String :=
  "stack-check error: " ++ match e with
    | .malformed cause => cause.message
    | .constantOutOfRange offset index size =>
      s!"constant index {index} at offset {offset} is outside the pool of {size}"
    | .underflow offset op needed =>
      s!"stack underflow at offset {offset}, {op.mnemonic} needs {needed} items"

/-- The **stack profile** of a unit. -/
structure StackProfile where
  /-- The greatest height after any instruction. -/
  maxDepth : Nat
  /-- The height at the end. -/
  finalDepth : Nat
deriving DecidableEq

/-- How many values an instruction takes off the stack, and how many it puts there. -/
def Opcode.effect : Opcode → Nat × Nat
  | .constant => (0, 1)
  | .arith _ => (2, 1)

/-- Checks the operands of the instruction at an offset: a pool reference has to be complete, and
then to lie in the pool; any other instruction has to end with the code or before. -/
def checkOperands (bytes : Array UInt8) (size offset : Nat) : Opcode → Except CheckError Unit
  | .constant =>
    match readOperand? bytes (offset + 1) Opcode.indexWidth with
    | none => .error (.malformed (.truncated .constant offset))
    | some index => if size ≤ index then .error (.constantOutOfRange offset index size) else .ok ()
  | op =>
    if bytes.size < offset + op.layout.size then .error (.malformed (.truncated op offset))
    else .ok ()

/-- Carries a profile over the instruction at an offset. -/
def StackProfile.apply (profile : StackProfile) (offset : Nat) (op : Opcode) :
    Except CheckError StackProfile :=
  let (pops, pushes) := op.effect
  if pops ≤ profile.finalDepth then
    let height := profile.finalDepth - pops + pushes
    .ok ⟨max profile.maxDepth height, height⟩
  else .error (.underflow offset op pops)

/-- **Checks the instructions from an offset on**, with the profile of those before. The operands
are checked before the height, and the next instruction starts by the size of the layout further
on. -/
def checkFrom (bytes : Array UInt8) (size offset : Nat) (profile : StackProfile) :
    Except CheckError StackProfile :=
  if hinside : offset < bytes.size then
    match Opcode.ofByte bytes[offset] with
    | .error cause => .error (.malformed cause)
    | .ok op =>
      match checkOperands bytes size offset op with
      | .error e => .error e
      | .ok () =>
        match profile.apply offset op with
        | .error e => .error e
        | .ok next => checkFrom bytes size (offset + op.layout.size) next
  else .ok profile
termination_by bytes.size - offset
decreasing_by
  have hsize := op.size_layout_pos
  omega

/-- The **stack check** of a unit. -/
def CodeUnit.check (u : CodeUnit) : Except CheckError StackProfile :=
  checkFrom u.code.toArray u.pool.size 0 ⟨0, 0⟩

end StackMachine
