import StackMachine.CodeUnit.Basic
import StackMachine.Machine.Arith
import StackMachine.Machine.Stack

/-! # Running a code unit

A machine holds a unit and an operand stack. It runs at most once: it executes the instructions in
order until the end or the first fault, and the stack keeps whatever the run left on it.

* **`executeAt`** executes the instruction at an offset.
* **`runFrom`** goes through the bytes of some code, from one instruction to the next by the size of
  its layout.
* **`Machine.run`** runs a machine and tells the result, the machine afterwards and the events of
  the run. -/

namespace StackMachine

/-- An **event** of a run. -/
inductive RunEvent where
  /-- An instruction at an offset is recognised, with the height of the stack before it. -/
  | exec (offset : Nat) (op : Opcode) (height : Nat)
  /-- The run reached the end. -/
  | halted (height : Nat)
  /-- The run ended in a fault. -/
  | faulted (error : RuntimeError) (height : Nat)
deriving DecidableEq

/-- The log line of a run event. -/
def RunEvent.line : RunEvent → String
  | .exec offset op height => s!"TRACE exec ip={offset} op={op.mnemonic} sp={height}"
  | .halted height => s!"DEBUG vm halted sp={height}"
  | .faulted error height => s!"DEBUG vm faulted error={error.message} sp={height}"

/-- What an instruction or a run leaves: the stack, with or without a fault. -/
inductive StepResult where
  /-- Execution went on with this stack. -/
  | next (stack : OperandStack)
  /-- Execution stopped with this stack. -/
  | fault (error : RuntimeError) (stack : OperandStack)

/-- Puts a value on the stack. A full stack stays as it is. -/
def pushValue (stack : OperandStack) (v : Value) : StepResult :=
  if stack.hasRoom then .next (stack.push v) else .fault (.stackOverflow stack.capacity) stack

/-- Puts the pool entry with an index on the stack. -/
def loadEntry (pool : Array Value) (stack : OperandStack) (index : Nat) : StepResult :=
  match pool[index]? with
  | some v => pushValue stack v
  | none => .fault (.constantOutOfRange index pool.size) stack

/-- Applies an operation. It takes its right operand off first, then its left one; what it has taken
is gone when it faults. -/
def applyTop (stack : OperandStack) (op : Arith) : StepResult :=
  match stack.pop with
  | (none, stack') => .fault .stackUnderflow stack'
  | (some right, stack') =>
    match stack'.pop with
    | (none, stack'') => .fault .stackUnderflow stack''
    | (some left, stack'') =>
      match op.apply left right with
      | .ok v => pushValue stack'' v
      | .error e => .fault e stack''

/-- Executes the instruction at an offset, whose opcode is known. The operand of a load is read only
now. -/
def executeAt (bytes : Array UInt8) (pool : Array Value) (offset : Nat) (stack : OperandStack) :
    Opcode → StepResult
  | .constant =>
    match readOperand? bytes (offset + 1) Opcode.indexWidth with
    | none => .fault (.truncatedInstruction offset) stack
    | some index => loadEntry pool stack index
  | .arith op => applyTop stack op

/-- **Executes the instructions from an offset on**, to the end or to the first fault. An
instruction is logged when its opcode is recognised, before it executes, and the next one starts by
the size of the layout further on. -/
def runFrom (bytes : Array UInt8) (pool : Array Value) (offset : Nat) (stack : OperandStack)
    (events : Array RunEvent) : StepResult × Array RunEvent :=
  if hinside : offset < bytes.size then
    match Opcode.ofByte bytes[offset] with
    | .error _ => (.fault (.unknownOpcode bytes[offset] offset) stack, events)
    | .ok op =>
      let events := events.push (.exec offset op stack.height)
      match executeAt bytes pool offset stack op with
      | .fault e stack' => (.fault e stack', events)
      | .next stack' => runFrom bytes pool (offset + op.layout.size) stack' events
  else (.next stack, events)
termination_by bytes.size - offset
decreasing_by
  have hsize := op.size_layout_pos
  omega

/-- A **machine**: a unit, an operand stack and the phase it is in. -/
structure Machine where
  /-- The unit it runs. -/
  unit : CodeUnit
  /-- Its operand stack. -/
  stack : OperandStack
  /-- Its phase. -/
  phase : Phase

/-- What a run gives. -/
structure RunOutcome where
  /-- The value on top of the stack, if any, or the fault. -/
  result : Except RuntimeError (Option Value)
  /-- The machine afterwards. -/
  machine : Machine
  /-- The events of the run, in order. -/
  events : List RunEvent

namespace Machine

/-- The number of slots of a machine that is given none. -/
def defaultCapacity : Nat := 2048

/-- A fresh machine for a unit. -/
def load (unit : CodeUnit) (capacity : Nat) : Machine := ⟨unit, .empty capacity, .ready⟩

/-- The run of a machine in its running phase. -/
def runCode (m : Machine) : RunOutcome :=
  let (ending, events) := runFrom m.unit.code.toArray m.unit.pool 0 m.stack #[]
  match ending with
  | .next stack =>
    ⟨.ok stack.top?, { m with stack := stack, phase := .halted },
      (events.push (.halted stack.height)).toList⟩
  | .fault e stack =>
    ⟨.error e, { m with stack := stack, phase := .faulted },
      (events.push (.faulted e stack.height)).toList⟩

/-- **Runs a machine.** Only a ready one runs; any other stays as it is. -/
def run (m : Machine) : RunOutcome :=
  match m.phase with
  | .ready => runCode { m with phase := .running }
  | phase => ⟨.error (.invalidPhase phase), m, []⟩

end Machine

end StackMachine
