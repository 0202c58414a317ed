import StackMachine.Node.Build
import StackMachine.Proofs.Compile.Expressions
import StackMachine.Proofs.Compile.FirstDefect

/-! # Chains of operators

A chain of operators over literals can be nested to the left, as the grammar nests operators of one
precedence, or to the right. Both are single expressions, and both have the value that folding the
operations in their direction gives. They differ in the stack: a chain to the left never needs more
than two slots, a chain to the right one for every literal.

* **`Node.IsExpression.exists_compile`** and **`Node.IsExpression.compileAndRun_eq`** — an
  expression as a program.
* **`chainLeft`** and **`chainRight`** — chains over literals; `foldLeft` and `foldRight` fold their
  operations.
* **`need_chainLeft`** and **`need_chainRight`** — the slots they need; `eval_chainRight` says that
  fewer are too few.
* **`compileAndRun_chain`** — what a chain of either direction compiles to and gives, for every
  length. -/

namespace StackMachine

/-! ## An expression as a program -/

namespace Node

namespace IsExpression

/-- All of an expression has code. -/
theorem hasCode {node : Node} (h : node.IsExpression) :
    ∀ item ∈ node.postorder, item.hasCode = true := by
  induction h with
  | number x => simp [postorder, PostItem.hasCode]
  | text s => simp [postorder, PostItem.hasCode]
  | binary hop hleft hright ihLeft ihRight =>
    intro item hmem
    rw [postorder, List.mem_append, List.mem_append, List.mem_singleton] at hmem
    rcases hmem with hitem | hitem | rfl
    · exact ihLeft item hitem
    · exact ihRight item hitem
    · rw [PostItem.hasCode, hop]
      rfl

/-- There is no block in an expression. -/
theorem blockFree {node : Node} (h : node.IsExpression) : node.blockFree = true := by
  induction h with
  | number x => rfl
  | text s => rfl
  | binary hop hleft hright ihLeft ihRight => rw [Node.blockFree, ihLeft, ihRight, Bool.and_self]

/-- There is no block at or below an operand of an expression. -/
theorem operandsBlockFree {node : Node} (h : node.IsExpression) :
    (Node.block [node]).operandsBlockFree = true := by
  have hnode : node.operandsBlockFree = true := by
    cases h with
    | number x => rfl
    | text s => rfl
    | binary hop hleft hright =>
      rw [Node.operandsBlockFree, hleft.blockFree, hright.blockFree, Bool.and_self]
  rw [Node.operandsBlockFree, operandsBlockFreeAll, operandsBlockFreeAll, hnode, Bool.and_self]

/-- An expression is its only statement. -/
theorem spliceAll_eq {node : Node} (h : node.IsExpression) : spliceAll [node] = [node] := by
  cases h <;> rfl

/-- **An expression compiles**, if the pool has room for its literals, and the check finds its
need. -/
theorem exists_compile {node : Node} (h : node.IsExpression)
    (hfits : (literals node.postorder).length ≤ 65536) :
    ∃ u, compile [node] = .ok u ∧ u.check = .ok ⟨node.need, 1⟩ := by
  have haccept : Acceptable (postorderAll [node]) := by
    rw [postorderAll, postorderAll, List.append_nil]
    exact ⟨h.hasCode, hfits⟩
  have hcompile := compile_of_acceptable haccept
  have hcheck := (assembled_of_compile hcompile).check_expressions h.operandsBlockFree
  have hneed : needAll [node] = node.need := by
    have hpos := node.need_pos
    rw [needAll, needAll]
    omega
  rw [h.spliceAll_eq, hneed] at hcheck
  exact ⟨_, hcompile, hcheck⟩

end IsExpression

end Node

/-- The default machine gives the topmost of the values that the traversal of the unit leaves, or
the error it ends in. -/
theorem compileAndRun_eq_result {program : List Node} {u : CodeUnit} (h : compile program = .ok u) :
    compileAndRun program
      = ((u.traverse Machine.defaultCapacity).effect.result.map List.head?).mapError
        PipelineError.runtime := by
  rw [compileAndRun, h]
  cases hresult : (u.traverse Machine.defaultCapacity).effect.result with
  | ok stack =>
    simp only [(Machine.run_load_of_result_ok hresult).1]
    rfl
  | error e =>
    simp only [(Machine.run_load_of_result_error hresult).1]
    rfl

/-- **The default machine gives the value of an expression** that needs no more slots than it
has. -/
theorem Node.IsExpression.compileAndRun_eq {node : Node} (h : node.IsExpression)
    (hfits : (literals node.postorder).length ≤ 65536) (hneed : node.need ≤ 2048) :
    compileAndRun [node] = (node.value.map some).mapError .runtime := by
  obtain ⟨u, hcompile, hcheck⟩ := h.exists_compile hfits
  have hslots : node.need ≤ Machine.defaultCapacity := hneed
  have hresult :=
    (assembled_of_compile hcompile).result_traverse_expressions h.operandsBlockFree hcheck hslots
  rw [compileAndRun_eq_result hcompile, hresult, h.spliceAll_eq, List.mapM_cons, List.mapM_nil]
  cases node.value <;> rfl

/-- Such an expression never overflows the default machine. -/
theorem Node.IsExpression.compileAndRun_ne_overflow {node : Node} (h : node.IsExpression)
    (hfits : (literals node.postorder).length ≤ 65536) (hneed : node.need ≤ 2048) (limit : Nat) :
    compileAndRun [node] ≠ .error (.runtime (.stackOverflow limit)) := by
  obtain ⟨u, hcompile, hcheck⟩ := h.exists_compile hfits
  rw [compileAndRun_eq_result hcompile]
  cases heffect : (u.traverse Machine.defaultCapacity).effect with
  | next live =>
    intro hover
    cases hover
  | fault e left =>
    intro hover
    cases hover
    exact CodeUnit.effect_ne_overflow_of_check hcheck hneed limit left heffect

/-! ## Literals and operations -/

/-- A **literal**: a number or a text. -/
inductive Literal where
  /-- A number. -/
  | number (x : Binary64)
  /-- A text. -/
  | text (s : String)

/-- The node of a literal. -/
def Literal.node : Literal → Node
  | .number x => .number x
  | .text s => .text s

/-- The value of a literal. -/
def Literal.value : Literal → Value
  | .number x => .number x
  | .text s => .text s

/-- The operator of an operation. -/
def Arith.operator : Arith → Operator
  | .add => .plus
  | .subtract => .dash
  | .multiply => .star
  | .divide => .slash

/-- **The arithmetic operators are those of the operations.** -/
theorem Operator.arith?_eq_some_iff {op : Operator} {operation : Arith} :
    op.arith? = some operation ↔ op = operation.operator := by
  cases op <;> cases operation <;> decide

/-- A literal is an expression. -/
theorem Literal.isExpression_node (literal : Literal) : literal.node.IsExpression := by
  cases literal with
  | number x => exact .number x
  | text s => exact .text s

/-- A literal has the value it stands for. -/
@[simp] theorem Literal.value_node (literal : Literal) :
    literal.node.value = .ok literal.value := by
  cases literal <;> rfl

/-- A literal needs one slot. -/
@[simp] theorem Literal.need_node (literal : Literal) : literal.node.need = 1 := by
  cases literal <;> rfl

/-- A literal is one constant. -/
@[simp] theorem Literal.literals_postorder_node (literal : Literal) :
    literals literal.node.postorder = [literal.value] := by
  cases literal <;> rfl

/-- A literal is pushed, if the stack has room for it. -/
theorem Literal.eval_node (literal : Literal) (capacity : Nat) (stack : List Value) :
    literal.node.eval capacity stack = pushBounded capacity literal.value stack := by
  cases literal <;> rfl

/-- The value of a binary node with an operation. -/
theorem value_binary_operator (left right : Node) (operation : Arith) :
    (Node.binary left operation.operator right).value
      = left.value >>= fun a => right.value >>= fun b => operation.apply a b := by
  simp only [Node.value, Operator.result,
    Operator.arith?_eq_some_iff.mpr (Eq.refl operation.operator)]

/-! ## Chains to the left -/

/-- The operators and operands of a chain. -/
def linksOf (tail : List (Arith × Literal)) : List (Operator × Node) :=
  tail.map fun link => (link.1.operator, link.2.node)

/-- **A chain to the left**: operations with their right operands, applied to a literal one after
the other. -/
def chainLeft (head : Literal) (tail : List (Arith × Literal)) : Node :=
  Node.chain head.node (linksOf tail)

/-- The operations of a chain to the left, the first one first; the first error wins. -/
def foldLeft (tail : List (Arith × Literal)) (a : Value) : Except RuntimeError Value :=
  tail.foldlM (fun a link => link.1.apply a link.2.value) a

section ChainLeft

variable {node : Node} (tail : List (Arith × Literal))

/-- The first link of a chain joins its head. -/
theorem chain_linksOf_cons (link : Arith × Literal) :
    Node.chain node (linksOf (link :: tail))
      = Node.chain (.binary node link.1.operator link.2.node) (linksOf tail) := rfl

/-- A chain on an expression is an expression. -/
theorem isExpression_chain (h : node.IsExpression) :
    (Node.chain node (linksOf tail)).IsExpression := by
  induction tail generalizing node with
  | nil => exact h
  | cons link tail ih =>
    rw [chain_linksOf_cons]
    exact ih (.binary (Operator.arith?_eq_some_iff.mpr rfl) h link.2.isExpression_node)

/-- Every link of a chain adds a constant. -/
theorem length_literals_chain :
    (literals (Node.chain node (linksOf tail)).postorder).length
      = (literals node.postorder).length + tail.length := by
  induction tail generalizing node with
  | nil => rfl
  | cons link tail ih =>
    rw [chain_linksOf_cons, ih, Node.postorder, literals_append, literals_append,
      Literal.literals_postorder_node]
    simp only [List.length_append, List.length_cons, literals, List.length_nil]
    omega

/-- **A chain to the left needs two slots**, one for the value so far and one for the next operand,
beside what its head needs. -/
theorem need_chain :
    (Node.chain node (linksOf tail)).need
      = if tail.length = 0 then node.need else max node.need 2 := by
  induction tail generalizing node with
  | nil => rfl
  | cons link tail ih =>
    rw [chain_linksOf_cons, ih, Node.need, Literal.need_node, List.length_cons,
      if_neg (Nat.succ_ne_zero _)]
    split <;> omega

/-- **The value of a chain to the left** is the fold of its operations, from the value of the head
on. -/
theorem value_chain : (Node.chain node (linksOf tail)).value = node.value >>= foldLeft tail := by
  induction tail generalizing node with
  | nil =>
    show node.value = node.value >>= fun a => .ok a
    cases node.value <;> rfl
  | cons link tail ih =>
    rw [chain_linksOf_cons, ih, value_binary_operator, Literal.value_node]
    cases node.value <;> rfl

end ChainLeft

section ChainLeftOfLiteral

variable (head : Literal) (tail : List (Arith × Literal))

/-- A chain to the left is an expression. -/
theorem isExpression_chainLeft : (chainLeft head tail).IsExpression :=
  isExpression_chain tail head.isExpression_node

/-- A chain to the left has one constant more than links. -/
theorem length_literals_chainLeft :
    (literals (chainLeft head tail).postorder).length = tail.length + 1 := by
  rw [chainLeft, length_literals_chain, Literal.literals_postorder_node, List.length_singleton,
    Nat.add_comm]

/-- A chain to the left needs two slots, unless it is a lone literal. -/
theorem need_chainLeft : (chainLeft head tail).need = if tail.length = 0 then 1 else 2 := by
  rw [chainLeft, need_chain, Literal.need_node]
  rfl

/-- The value of a chain to the left is the fold of its operations, from its head on. -/
theorem value_chainLeft : (chainLeft head tail).value = foldLeft tail head.value := by
  rw [chainLeft, value_chain, Literal.value_node]
  rfl

end ChainLeftOfLiteral

/-! ## Chains to the right -/

/-- **A chain to the right**: literals with the operations behind them, each applied to all that
follows. -/
def chainRight (links : List (Literal × Arith)) (last : Literal) : Node :=
  links.foldr (fun link rest => Node.chain link.1.node [(link.2.operator, rest)]) last.node

/-- The operations of a chain to the right, the last one first; the first error met wins. -/
def foldRight (links : List (Literal × Arith)) (b : Value) : Except RuntimeError Value :=
  links.foldrM (fun link b => link.2.apply link.1.value b) b

section ChainRight

variable (links : List (Literal × Arith)) (last : Literal)

/-- The first link of a chain to the right is its root. -/
theorem chainRight_cons (link : Literal × Arith) :
    chainRight (link :: links) last = .binary link.1.node link.2.operator (chainRight links last) :=
  rfl

/-- A chain to the right is an expression. -/
theorem isExpression_chainRight : (chainRight links last).IsExpression := by
  induction links with
  | nil => exact last.isExpression_node
  | cons link links ih =>
    exact .binary (Operator.arith?_eq_some_iff.mpr rfl) link.1.isExpression_node ih

/-- A chain to the right has one constant more than links. -/
theorem length_literals_chainRight :
    (literals (chainRight links last).postorder).length = links.length + 1 := by
  induction links with
  | nil =>
    show (literals last.node.postorder).length = 1
    rw [Literal.literals_postorder_node, List.length_singleton]
  | cons link links ih =>
    rw [chainRight_cons, Node.postorder, literals_append, literals_append,
      Literal.literals_postorder_node]
    simp only [List.length_append, ih, List.length_cons, literals, List.length_nil]
    omega

/-- **A chain to the right needs a slot for every literal**: no operation is applied before the last
one is pushed. -/
theorem need_chainRight : (chainRight links last).need = links.length + 1 := by
  induction links with
  | nil => exact last.need_node
  | cons link links ih =>
    rw [chainRight_cons, Node.need, ih, Literal.need_node, List.length_cons]
    omega

/-- **The value of a chain to the right** is the fold of its operations, from the last literal
on. -/
theorem value_chainRight : (chainRight links last).value = foldRight links last.value := by
  induction links with
  | nil => exact last.value_node
  | cons link links ih =>
    rw [chainRight_cons, value_binary_operator, Literal.value_node, ih, foldRight, foldRight,
      List.foldrM_cons]
    rfl

/-- **A chain to the right overflows a stack** that has no room for all of its literals. -/
theorem eval_chainRight {capacity : Nat} {stack : List Value}
    (h : capacity ≤ stack.length + links.length) :
    (chainRight links last).eval capacity stack = .error (.stackOverflow capacity) := by
  induction links generalizing stack with
  | nil =>
    have hfull : ¬ stack.length < capacity := Nat.not_lt.mpr h
    show last.node.eval capacity stack = _
    rw [Literal.eval_node, pushBounded, if_neg hfull]
  | cons link links ih =>
    rw [chainRight_cons, Node.eval, Literal.eval_node]
    rcases pushBounded_eq capacity link.1.value stack with hpush | hpush
    · rw [hpush]
      rfl
    · -- the others find one slot less
      have hrest : capacity ≤ (link.1.value :: stack).length + links.length := by
        rw [List.length_cons] at h ⊢
        omega
      rw [hpush]
      show ((chainRight links last).eval capacity (link.1.value :: stack) >>= link.2.operator.onTop)
        = _
      rw [ih hrest]
      rfl

end ChainRight

/-! ## Chains as programs -/

/-- **What chains of operators compile to and give.** A chain to the left of up to 65535 operations
compiles; it needs one slot without operations and two with them, leaves one value, and gives the
fold of its operations or the first error of the fold, never an overflow. A chain to the right needs
one slot more than it has operations; the default machine overflows on it exactly from 2048
operations on, and below gives the fold of its operations from the last one on, or the first error
of that fold. -/
theorem compileAndRun_chain :
    (∀ head tail, tail.length ≤ 65535 →
      (∃ u, compile [chainLeft head tail] = .ok u ∧
        u.check = .ok ⟨if tail.length = 0 then 1 else 2, 1⟩) ∧
      compileAndRun [chainLeft head tail]
        = ((foldLeft tail head.value).map some).mapError .runtime ∧
      ∀ limit, compileAndRun [chainLeft head tail] ≠ .error (.runtime (.stackOverflow limit))) ∧
    ∀ links last, links.length ≤ 65535 →
      (∃ u, compile [chainRight links last] = .ok u ∧ u.check = .ok ⟨links.length + 1, 1⟩) ∧
      (compileAndRun [chainRight links last] = .error (.runtime (.stackOverflow 2048)) ↔
        2048 ≤ links.length) ∧
      (links.length < 2048 →
        compileAndRun [chainRight links last]
          = ((foldRight links last.value).map some).mapError .runtime) := by
  refine ⟨?_, ?_⟩
  · intro head tail hlength
    have hexpression := isExpression_chainLeft head tail
    have hneed := need_chainLeft head tail
    have hfits : (literals (chainLeft head tail).postorder).length ≤ 65536 := by
      rw [length_literals_chainLeft]
      omega
    have hslots : (chainLeft head tail).need ≤ 2048 := by
      rw [hneed]
      split <;> decide
    refine ⟨?_, ?_, hexpression.compileAndRun_ne_overflow hfits hslots⟩
    · rw [← hneed]
      exact hexpression.exists_compile hfits
    · rw [← value_chainLeft]
      exact hexpression.compileAndRun_eq hfits hslots
  · intro links last hlength
    have hexpression := isExpression_chainRight links last
    have hneed := need_chainRight links last
    have hfits : (literals (chainRight links last).postorder).length ≤ 65536 := by
      rw [length_literals_chainRight]
      omega
    obtain ⟨u, hcompile, hcheck⟩ := hexpression.exists_compile hfits
    refine ⟨⟨u, hcompile, by rw [hcheck, hneed]⟩, ⟨?_, ?_⟩, ?_⟩
    · intro hover
      refine Nat.not_lt.mp fun hlt => ?_
      exact hexpression.compileAndRun_ne_overflow hfits (by omega) 2048 hover
    · intro hlong
      have heval : Node.evalAll 2048 [chainRight links last] [] = .error (.stackOverflow 2048) := by
        rw [Node.evalAll, eval_chainRight links last (by simpa using hlong)]
        rfl
      rw [compileAndRun_eq_result hcompile, (assembled_of_compile hcompile).result_traverse,
        foldlM_postorderAll, Machine.defaultCapacity, heval]
      rfl
    · intro hshort
      rw [← value_chainRight]
      exact hexpression.compileAndRun_eq hfits (by omega)

/-- The two directions on the same operations: to the left the difference of two texts is met first,
to the right the division by zero. A chain to the right that is one operation too long for the
machine overflows instead. -/
theorem compileAndRun_chain_two_errors :
    compileAndRun [chainLeft (.text "a")
          [(.add, .text "b"), (.subtract, .text "c"), (.divide, .number ⟨0⟩)]]
        = .error (.runtime (.typeMismatch .subtract .text .text)) ∧
      compileAndRun [chainRight
          [(.text "a", .add), (.text "b", .subtract), (.number ⟨1⟩, .divide)] (.number ⟨0⟩)]
        = .error (.runtime .divideByZero) ∧
      compileAndRun [chainRight (List.replicate 2048 (.text "a", .add)) (.text "b")]
        = .error (.runtime (.stackOverflow 2048)) := by
  obtain ⟨hleft, hright⟩ := compileAndRun_chain
  refine ⟨?_, ?_, ?_⟩
  · rw [(hleft (.text "a") [(.add, .text "b"), (.subtract, .text "c"), (.divide, .number ⟨0⟩)]
      (by decide)).2.1]
    rfl
  · rw [(hright [(.text "a", .add), (.text "b", .subtract), (.number ⟨1⟩, .divide)] (.number ⟨0⟩)
      (by decide)).2.2 (by decide)]
    rfl
  · have hlength : (List.replicate 2048 (Literal.text "a", Arith.add)).length = 2048 :=
      List.length_replicate
    exact (hright _ (.text "b") (by omega)).2.1.mpr (by omega)

end StackMachine
