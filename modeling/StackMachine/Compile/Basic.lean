import StackMachine.Code.Instr
import StackMachine.CodeUnit.Basic
import StackMachine.Node.Basic

/-! # Code generation

Literals become loads of fresh pool entries and the four arithmetic operators become operations;
blocks are compiled statement by statement, and nothing is taken off the stack between them. Every
other node is refused. The tree is walked with a list of pending tasks, so its depth does not
matter.

* **`Draft.emit`** appends a checked instruction, **`Draft.emitConstant`** a constant with its load
  and **`Draft.emitOperator`** the operation of an operator.
* **`generate`** works through a list of tasks.
* **`compile`** is the unit of a program, or the first error. -/

namespace StackMachine

/-- A reason why a program has **no code**. -/
inductive CompileError where
  /-- A node of a kind that has no code. -/
  | unsupportedNode (kind : NodeKind)
  /-- A binary operator that has no instruction. -/
  | unsupportedOperator (op : Operator)
  /-- A constant whose index would exceed the greatest one. -/
  | poolOverflow (index max : Nat)
  /-- An instruction that came out malformed. -/
  | encoding (cause : InstrError)
deriving DecidableEq

/-- The wording of a compile error. -/
def CompileError.message (e : CompileError) : String :=
  "compile error: " ++ match e with
    | .unsupportedNode kind => s!"cannot compile '{kind.name}' node"
    | .unsupportedOperator op => s!"no instruction for operator '{op.symbol}' ({op.name})"
    | .poolOverflow index max => s!"constant index {index} exceeds the pool limit of {max}"
    | .encoding cause => cause.message

/-- The arithmetic operation of an operator, if it has one. -/
def Operator.arith? : Operator → Option Arith
  | .plus => some .add
  | .dash => some .subtract
  | .star => some .multiply
  | .slash => some .divide
  | _ => none

/-- The greatest pool index that an instruction can hold. -/
def maxIndex : Nat := 65535

/-- The code **generated so far**. -/
structure Draft where
  /-- The instructions, in order. -/
  instrs : Array Instr
  /-- The constants they load. -/
  pool : Array Value

/-- A finished or failed **generation**: the draft, and the error that ended it. -/
structure Generation where
  /-- The code generated up to the end. -/
  draft : Draft
  /-- The first error. -/
  error? : Option CompileError

namespace Draft

/-- The draft without instructions. -/
def empty : Draft := ⟨#[], #[]⟩

/-- Appends the instruction of an opcode with operands; a malformed one is not appended. -/
def emit (d : Draft) (op : Opcode) (operands : List Nat) : Generation :=
  match Instr.ofOperands op operands with
  | .ok i => ⟨{ d with instrs := d.instrs.push i }, none⟩
  | .error cause => ⟨d, some (.encoding cause)⟩

/-- Whether the index of another constant would exceed the greatest one. -/
def isFull (d : Draft) : Bool := maxIndex < d.pool.size

/-- Appends a constant, unless the pool is full, and the load of its index. -/
def emitConstant (d : Draft) (v : Value) : Generation :=
  if d.isFull then ⟨d, some (.poolOverflow d.pool.size maxIndex)⟩
  else
    let index := d.pool.size
    { d with pool := d.pool.push v }.emit .constant [index]

/-- Appends the operation of an operator, if it has one. -/
def emitOperator (d : Draft) (op : Operator) : Generation :=
  match op.arith? with
  | some operation => d.emit (.arith operation) []
  | none => ⟨d, some (.unsupportedOperator op)⟩

/-- The unit of a finished draft. -/
def toUnit (d : Draft) : CodeUnit := ⟨encodeAll d.instrs.toList, d.pool⟩

end Draft

/-- A pending **task** of code generation. -/
inductive Task where
  /-- Generate the code of a node. -/
  | visit (node : Node)
  /-- Generate the instruction of an operator whose operands are done. -/
  | apply (op : Operator)

mutual

/-- The number of tasks that a node gives rise to. -/
def Node.weight : Node → Nat
  | .block nodes => 1 + Node.totalWeight nodes
  | .binary left _ right => 2 + left.weight + right.weight
  | _ => 1

/-- The number of tasks that a list of nodes gives rise to. -/
def Node.totalWeight : List Node → Nat
  | [] => 0
  | node :: rest => node.weight + Node.totalWeight rest

end

/-- The number of tasks that a task gives rise to, itself included. -/
def Task.weight : Task → Nat
  | .visit node => node.weight
  | .apply _ => 1

/-- The number of tasks that a list of tasks gives rise to. -/
def Task.totalWeight : List Task → Nat
  | [] => 0
  | task :: rest => task.weight + Task.totalWeight rest

/-- The tasks of visiting the nodes of a list in order. -/
def Task.visitAll (nodes : List Node) : List Task := nodes.map .visit

/-- Visiting the nodes of a list before other tasks adds the weight of the list. -/
theorem Task.totalWeight_visitAll_append (nodes : List Node) (rest : List Task) :
    Task.totalWeight (Task.visitAll nodes ++ rest)
      = Node.totalWeight nodes + Task.totalWeight rest := by
  induction nodes with
  | nil => simp [visitAll, Node.totalWeight]
  | cons node nodes ih =>
    simp only [visitAll, List.map_cons, List.cons_append, Task.totalWeight, Task.weight,
      Node.totalWeight] at ih ⊢
    omega

/-- Works through a list of tasks, the first one first. The tasks of a block are its nodes; those of
a binary node are its left operand, its right operand and its operator. -/
def generate (d : Draft) : List Task → Generation
  | [] => ⟨d, none⟩
  | .apply op :: rest =>
    match d.emitOperator op with
    | ⟨d', none⟩ => generate d' rest
    | failed => failed
  | .visit node :: rest =>
    match node with
    | .block nodes => generate d (Task.visitAll nodes ++ rest)
    | .binary left op right => generate d (.visit left :: .visit right :: .apply op :: rest)
    | .number x =>
      match d.emitConstant (.number x) with
      | ⟨d', none⟩ => generate d' rest
      | failed => failed
    | .text s =>
      match d.emitConstant (.text s) with
      | ⟨d', none⟩ => generate d' rest
      | failed => failed
    | other => ⟨d, some (.unsupportedNode other.kind)⟩
termination_by tasks => Task.totalWeight tasks
decreasing_by
  all_goals
    simp only [Task.totalWeight, Task.totalWeight_visitAll_append, Task.weight, Node.weight]
    omega

/-- The code generation of a program. -/
def generateAll (program : List Node) : Generation := generate .empty (Task.visitAll program)

/-- The unit of a generation, or the error that ended it. -/
def Generation.result (g : Generation) : Except CompileError CodeUnit :=
  match g.error? with
  | none => .ok g.draft.toUnit
  | some e => .error e

/-- **Compiles a program.** -/
def compile (program : List Node) : Except CompileError CodeUnit := (generateAll program).result

end StackMachine
