import StackMachine.Compile.Basic

/-! # Events of code generation

* **`locate`** gives each instruction of a sequence its offset.
* **`Generation.events`** are the emitted instructions, and the size of the unit if the generation
  succeeded. -/

namespace StackMachine

/-- An **event** of code generation. -/
inductive CompileEvent where
  /-- An instruction is emitted at an offset. -/
  | emit (item : Located)
  /-- The unit is complete. -/
  | compiled (bytes constants : Nat)
deriving DecidableEq

/-- The log line of a compile event. -/
def CompileEvent.line : CompileEvent → String
  | .emit item =>
    let operands := ", ".intercalate (item.instr.operands.map fun operand => toString operand)
    s!"TRACE emit offset={item.offset} op={item.instr.opcode.mnemonic} operands=[{operands}]"
  | .compiled bytes constants => s!"DEBUG compiled block bytes={bytes} constants={constants}"

/-- Gives the instructions their offsets, from `offset` on, behind those already located. -/
def locateFrom (offset : Nat) (found : Array Located) : List Instr → List Located
  | [] => found.toList
  | i :: rest => locateFrom (offset + i.size) (found.push ⟨offset, i⟩) rest

/-- The instructions of a sequence with their offsets. -/
def locate (instrs : List Instr) : List Located := locateFrom 0 #[] instrs

/-- The **events** of a generation. -/
def Generation.events (g : Generation) : List CompileEvent :=
  let emits := (locate g.draft.instrs.toList).map CompileEvent.emit
  match g.error? with
  | none => emits ++ [.compiled (encodeAll g.draft.instrs.toList).length g.draft.pool.size]
  | some _ => emits

end StackMachine
