import StackMachine.Pipeline
import StackMachine.Proofs.Compile.Evaluation
import StackMachine.Proofs.StackCheck.Need

/-! # Programs of expressions

Where no block stands inside an operand, every statement of a program has a value that can be told
without a stack. The stack then plays no part in what the program gives, as long as it is as large
as the check says.

* **`Node.value`** — the value of an expression: left operand, right operand, operation, and the
  first error wins.
* **`Node.IsExpression.eval`** — on a bounded stack an expression pushes its value, or the stack
  overflows.
* **`evalAll_expressions`** — so do statements one after the other.
* **`run_compile_eq_values`** — the run of such a program leaves the values of its statements, or
  the first error. -/

namespace StackMachine

/-! ## Values of expressions -/

/-- The result of an operator on two values. One without an operation gives null. -/
def Operator.result (op : Operator) (left right : Value) : Except RuntimeError Value :=
  match op.arith? with
  | some operation => operation.apply left right
  | none => .ok .null

/-- **The value of an expression**: of a literal it is the literal, of a binary node the result of
its operator on the values of its operands, the left one first; the first error wins. A node of any
other kind counts as null. -/
def Node.value : Node → Except RuntimeError Value
  | .number x => .ok (.number x)
  | .text s => .ok (.text s)
  | .binary left op right => do
    let a ← left.value
    let b ← right.value
    op.result a b
  | _ => .ok .null

/-- A push finds room, or the stack overflows. -/
theorem pushBounded_eq (capacity : Nat) (v : Value) (stack : List Value) :
    pushBounded capacity v stack = .error (.stackOverflow capacity) ∨
      pushBounded capacity v stack = .ok (v :: stack) := by
  unfold pushBounded
  by_cases hroom : stack.length < capacity
  · rw [if_pos hroom]
    exact Or.inr rfl
  · rw [if_neg hroom]
    exact Or.inl rfl

/-- **An expression pushes its value, or the stack overflows.** What lies below on the stack plays
no part. -/
theorem Node.IsExpression.eval {node : Node} (h : node.IsExpression) (capacity : Nat)
    (stack : List Value) :
    node.eval capacity stack = .error (.stackOverflow capacity) ∨
      node.eval capacity stack = node.value.map fun v => v :: stack := by
  induction h generalizing stack with
  | number x => exact pushBounded_eq capacity (.number x) stack
  | text s => exact pushBounded_eq capacity (.text s) stack
  | @binary left right op operation hop hleft hright ihLeft ihRight =>
    rw [Node.eval, Node.value]
    rcases ihLeft stack with hevalLeft | hevalLeft
    · rw [hevalLeft]
      exact Or.inl rfl
    · rw [hevalLeft]
      cases left.value with
      | error e => exact Or.inr rfl
      | ok a =>
        -- the right operand is evaluated above the value of the left one
        show (right.eval capacity (a :: stack) >>= op.onTop) = _ ∨
          (right.eval capacity (a :: stack) >>= op.onTop)
            = (right.value >>= fun b => op.result a b).map fun v => v :: stack
        rcases ihRight (a :: stack) with hevalRight | hevalRight
        · rw [hevalRight]
          exact Or.inl rfl
        · rw [hevalRight]
          refine Or.inr ?_
          cases right.value with
          | error e => rfl
          | ok b =>
            show op.onTop (b :: a :: stack) = (op.result a b).map fun v => v :: stack
            rw [Operator.onTop, Operator.result, hop]
            rfl

/-- **Statements push their values one after the other**, up to the first error, or the stack
overflows. -/
theorem evalAll_expressions {statements : List Node}
    (h : ∀ statement ∈ statements, statement.IsExpression) (capacity : Nat) (stack : List Value) :
    Node.evalAll capacity statements stack = .error (.stackOverflow capacity) ∨
      Node.evalAll capacity statements stack
        = (statements.mapM Node.value).map fun values => values.reverse ++ stack := by
  induction statements generalizing stack with
  | nil => exact Or.inr rfl
  | cons statement rest ih =>
    have hrest : ∀ s ∈ rest, s.IsExpression := fun s hs => h s (List.mem_cons_of_mem _ hs)
    rw [Node.evalAll, List.mapM_cons]
    rcases (h statement List.mem_cons_self).eval capacity stack with hfirst | hfirst
    · rw [hfirst]
      exact Or.inl rfl
    · rw [hfirst]
      cases statement.value with
      | error e => exact Or.inr rfl
      | ok v =>
        show Node.evalAll capacity rest (v :: stack) = _ ∨
          Node.evalAll capacity rest (v :: stack) = _
        rcases ih hrest (v :: stack) with hevalRest | hevalRest
        · exact Or.inl hevalRest
        · refine Or.inr ?_
          rw [hevalRest]
          cases rest.mapM Node.value with
          | error e => rfl
          | ok values =>
            show Except.ok (values.reverse ++ v :: stack)
              = Except.ok ((v :: values).reverse ++ stack)
            rw [List.reverse_cons, List.append_assoc, List.singleton_append]

/-! ## Runs of programs of expressions -/

/-- **The traversal of a program of expressions** on enough slots leaves the values of its
statements, or ends in the first error: the check excludes the overflow that the evaluation leaves
open. -/
theorem Assembled.result_traverse_expressions {program : List Node} {u : CodeUnit}
    (h : Assembled (Node.postorderAll program) u)
    (hfree : (Node.block program).operandsBlockFree = true) {profile : StackProfile}
    (hcheck : u.check = .ok profile) {capacity : Nat} (hmax : profile.maxDepth ≤ capacity) :
    (u.traverse capacity).effect.result
      = ((Node.spliceAll program).mapM Node.value).map fun values => values.reverse := by
  have heval : (u.traverse capacity).effect.result
      = Node.evalAll capacity (Node.spliceAll program) [] := by
    rw [h.result_traverse, ← foldlM_postorderAll, Node.postorderAll_spliceAll]
  have hfollows := CodeUnit.follows_of_check hcheck capacity
  rcases evalAll_expressions (h.isExpression hfree) capacity [] with hover | hvalues
  · -- an overflow would be one that the check has not foreseen
    rw [hover] at heval
    generalize (u.traverse capacity).effect = effect at heval hfollows
    cases hfollows with
    | next => cases heval
    | overflow live hlt => exact absurd hmax (Nat.not_le_of_lt hlt)
    | operands he => cases he <;> cases heval
  · rw [heval, hvalues]
    simp only [List.append_nil]

/-- The run of a program of expressions on enough slots. -/
theorem Assembled.run_expressions {program : List Node} {u : CodeUnit}
    (h : Assembled (Node.postorderAll program) u)
    (hfree : (Node.block program).operandsBlockFree = true) {profile : StackProfile}
    (hcheck : u.check = .ok profile) {capacity : Nat} (hmax : profile.maxDepth ≤ capacity) :
    match (Node.block program).splice.mapM Node.value with
    | .ok values =>
      (Machine.load u capacity).run.result = .ok values.getLast? ∧
        (Machine.load u capacity).run.machine.phase = .halted ∧
        (Machine.load u capacity).run.machine.stack.values = values
    | .error e =>
      (Machine.load u capacity).run.result = .error e ∧
        (Machine.load u capacity).run.machine.phase = .faulted := by
  have hresult := h.result_traverse_expressions hfree hcheck hmax
  rw [Node.splice]
  cases hvalues : (Node.spliceAll program).mapM Node.value with
  | error e =>
    rw [hvalues] at hresult
    exact Machine.run_load_of_result_error hresult
  | ok values =>
    rw [hvalues] at hresult
    -- the values lie on the stack in reverse, the last one on top
    have hrun := Machine.run_load_of_result_ok hresult
    rwa [List.head?_reverse, List.reverse_reverse] at hrun

/-- **A program of expressions gives the values of its statements.** Whenever no block stands at or
below an operand, the unit passes the check, and with at least as many slots as the check says its
run leaves the values of all statements in order, with the last one as its result, or ends in the
first error; so does the default machine when its slots suffice. -/
theorem run_compile_eq_values {program : List Node} {u : CodeUnit} (h : compile program = .ok u)
    (hfree : (Node.block program).operandsBlockFree = true) :
    ∃ profile, u.check = .ok profile ∧
      (∀ capacity, profile.maxDepth ≤ capacity →
        match (Node.block program).splice.mapM Node.value with
        | .ok values =>
          (Machine.load u capacity).run.result = .ok values.getLast? ∧
            (Machine.load u capacity).run.machine.phase = .halted ∧
            (Machine.load u capacity).run.machine.stack.values = values
        | .error e =>
          (Machine.load u capacity).run.result = .error e ∧
            (Machine.load u capacity).run.machine.phase = .faulted) ∧
      (profile.maxDepth ≤ 2048 →
        compileAndRun program =
          match (Node.block program).splice.mapM Node.value with
          | .ok values => .ok values.getLast?
          | .error e => .error (.runtime e)) := by
  have hassembled := assembled_of_compile h
  have hcheck := hassembled.check_expressions hfree
  refine ⟨_, hcheck, ?_, ?_⟩
  · intro capacity hmax
    exact hassembled.run_expressions hfree hcheck hmax
  · intro hmax
    have hrun :=
      @Assembled.run_expressions _ _ hassembled hfree _ hcheck Machine.defaultCapacity hmax
    rw [compileAndRun, h]
    cases hvalues : (Node.block program).splice.mapM Node.value with
    | error e =>
      rw [hvalues] at hrun
      simp only [hrun.1]
    | ok values =>
      rw [hvalues] at hrun
      simp only [hrun.1]

/-- Nested blocks are spliced, and a failing statement stops those after it. -/
theorem run_compile_eq_values_nested :
    let program : List Node :=
      [.text "a", .block [.binary (.text "b") .plus (.text "c"), .block []],
        .binary (.text "d") .dash (.binary (.text "e") .plus (.text "f")), .text "g"]
    ∃ u, compile program = .ok u ∧ (Node.block program).operandsBlockFree = true ∧
      compileAndRun program = .error (.runtime (.typeMismatch .subtract .text .text)) := by
  intro program
  have hcompile : compile program = .ok
      ⟨encodeAll [.load 0, .load 1, .load 2, .apply .add, .load 3, .load 4, .load 5, .apply .add,
        .apply .subtract, .load 6],
        #[.text "a", .text "b", .text "c", .text "d", .text "e", .text "f", .text "g"]⟩ := by
    rw [compile_eq_emitAll]
    rfl
  obtain ⟨profile, hcheck, -, hrun⟩ := run_compile_eq_values hcompile rfl
  rw [CodeUnit.check_eq_follow] at hcheck
  have hprofile : profile = ⟨5, 4⟩ := (Except.ok.inj hcheck).symm
  refine ⟨_, hcompile, rfl, ?_⟩
  rw [hrun (by rw [hprofile]; decide)]
  rfl

end StackMachine
