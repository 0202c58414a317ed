import StackMachine.Compile.Basic
import StackMachine.Machine.Run

/-! # From a program to its value

* **`compileAndRun`** compiles a program and runs it on a fresh machine of the default capacity. -/

namespace StackMachine

/-- A failure on the way from a program to its value. -/
inductive PipelineError where
  /-- The program has no code. -/
  | compile (error : CompileError)
  /-- The run ended in a fault. -/
  | runtime (error : RuntimeError)
deriving DecidableEq

/-- The **value of a program**: what its run leaves on top of the stack, if anything. -/
def compileAndRun (program : List Node) : Except PipelineError (Option Value) :=
  match compile program with
  | .error e => .error (.compile e)
  | .ok unit =>
    match ((Machine.load unit Machine.defaultCapacity).run).result with
    | .error e => .error (.runtime e)
    | .ok value => .ok value

end StackMachine
