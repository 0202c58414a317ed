import StackMachine.Proofs.Compile.Postorder

/-! # Statements of a program

Blocks group statements and leave no trace in the code. A program whose operands hold no blocks is
therefore a list of **statements** that are expressions: literals, and binary nodes over
expressions.

* **`Node.splice`** — the statements of a tree, those of nested blocks in place; splicing does not
  change the post-order (`Node.postorderAll_spliceAll`).
* **`Node.operandsBlockFree`** — no block stands at or below an operand; then the statements are
  free of blocks (`Node.blockFree_of_mem_splice`).
* **`Node.IsExpression`** — a literal, or an arithmetic operator over expressions; the statements of
  such a program are expressions when it compiles (`Assembled.isExpression`). -/

namespace StackMachine

/-! ## Splicing blocks -/

mutual

/-- The **statements** of a tree: those of a block, with nested blocks spliced in place, or the tree
itself. -/
def Node.splice : Node → List Node
  | .block nodes => Node.spliceAll nodes
  | node => [node]

/-- The statements of trees one after the other. -/
def Node.spliceAll : List Node → List Node
  | [] => []
  | node :: rest => node.splice ++ Node.spliceAll rest

end

/-- A node without a rule is its only statement. -/
theorem Node.splice_of_hasRule_eq_false {node : Node} (h : node.hasRule = false) :
    node.splice = [node] := by
  cases node <;> first | rfl | cases h

/-- Splicing a tree does not change its post-order. -/
theorem Node.postorderAll_splice (node : Node) :
    Node.postorderAll node.splice = node.postorder := by
  induction node using Node.ruleInduction with
  | number x => simp [Node.splice, Node.postorderAll]
  | text s => simp [Node.splice, Node.postorderAll]
  | binary left op right => simp [Node.splice, Node.postorderAll]
  | other node h => simp [Node.splice_of_hasRule_eq_false h, Node.postorderAll]
  | block nodes ih =>
    rw [Node.splice, Node.postorder]
    induction nodes with
    | nil => rfl
    | cons node rest ihRest =>
      rw [Node.spliceAll, Node.postorderAll_append, ih node List.mem_cons_self, Node.postorderAll,
        ihRest fun node h => ih node (List.mem_cons_of_mem _ h)]

/-- **Splicing does not change the post-order** of a program. -/
theorem Node.postorderAll_spliceAll (nodes : List Node) :
    Node.postorderAll (Node.spliceAll nodes) = Node.postorderAll nodes :=
  Node.postorderAll_splice (.block nodes)

/-! ## Operands without blocks -/

/-- Whether there is no block at or below the root of an operand. Nodes without a rule, which never
get code, are not looked into. -/
def Node.blockFree : Node → Bool
  | .block _ => false
  | .binary left _ right => left.blockFree && right.blockFree
  | _ => true

mutual

/-- Whether there is **no block at or below an operand** of a binary node. -/
def Node.operandsBlockFree : Node → Bool
  | .block nodes => Node.operandsBlockFreeAll nodes
  | .binary left _ right => left.blockFree && right.blockFree
  | _ => true

/-- Whether there is no block at or below an operand in any of the trees. -/
def Node.operandsBlockFreeAll : List Node → Bool
  | [] => true
  | node :: rest => node.operandsBlockFree && Node.operandsBlockFreeAll rest

end

/-- A node without a rule stands for itself: it is no block. -/
theorem Node.blockFree_of_hasRule_eq_false {node : Node} (h : node.hasRule = false) :
    node.blockFree = true := by
  cases node <;> first | rfl | cases h

/-- **Where operands have no blocks, statements are free of blocks.** -/
theorem Node.blockFree_of_mem_splice {node statement : Node} (h : node.operandsBlockFree = true)
    (hmem : statement ∈ node.splice) : statement.blockFree = true := by
  induction node using Node.ruleInduction with
  | number x =>
    obtain rfl : statement = .number x := List.mem_singleton.mp hmem
    rfl
  | text s =>
    obtain rfl : statement = .text s := List.mem_singleton.mp hmem
    rfl
  | binary left op right =>
    obtain rfl : statement = .binary left op right := List.mem_singleton.mp hmem
    exact h
  | other node hrule =>
    rw [Node.splice_of_hasRule_eq_false hrule, List.mem_singleton] at hmem
    rw [hmem]
    exact Node.blockFree_of_hasRule_eq_false hrule
  | block nodes ih =>
    -- a statement of a block comes from one of its nodes, which may be a block again
    rw [Node.splice] at hmem
    rw [Node.operandsBlockFree] at h
    induction nodes with
    | nil => cases hmem
    | cons node rest ihRest =>
      rw [Node.operandsBlockFreeAll, Bool.and_eq_true] at h
      rw [Node.spliceAll, List.mem_append] at hmem
      rcases hmem with hfirst | hrest
      · exact ih node List.mem_cons_self h.1 hfirst
      · exact ihRest (fun node hmem => ih node (List.mem_cons_of_mem _ hmem)) h.2 hrest

/-! ## Expressions -/

/-- An **expression**: a literal, or an arithmetic operator over expressions. -/
inductive Node.IsExpression : Node → Prop where
  /-- A number is an expression. -/
  | number (x : Binary64) : IsExpression (.number x)
  /-- A text is an expression. -/
  | text (s : String) : IsExpression (.text s)
  /-- An arithmetic operator makes an expression of two. -/
  | binary {left right : Node} {op : Operator} {operation : Arith}
      (hop : op.arith? = some operation) (hleft : IsExpression left) (hright : IsExpression right) :
      IsExpression (.binary left op right)

/-- A tree without blocks, all of whose items have code, is an expression. -/
theorem Node.isExpression_of_blockFree {node : Node} (hfree : node.blockFree = true)
    (hcode : ∀ item ∈ node.postorder, item.hasCode = true) : node.IsExpression := by
  induction node using Node.ruleInduction with
  | number x => exact .number x
  | text s => exact .text s
  | block nodes => cases hfree
  | other node hrule =>
    -- such a node is an item of its own, and this item has no code
    rw [Node.postorder_of_hasRule_eq_false hrule] at hcode
    have hother := hcode _ List.mem_cons_self
    cases hother
  | binary left op right ihLeft ihRight =>
    rw [Node.blockFree, Bool.and_eq_true] at hfree
    rw [Node.postorder] at hcode
    have hop : op.arith?.isSome = true := hcode (.operator op) (by simp)
    obtain ⟨operation, hoperation⟩ := Option.isSome_iff_exists.mp hop
    refine .binary hoperation (ihLeft hfree.1 ?_) (ihRight hfree.2 ?_)
    · intro item hitem
      exact hcode item (List.mem_append_left _ hitem)
    · intro item hitem
      exact hcode item (List.mem_append_right _ (List.mem_append_left _ hitem))

/-- The items of a tree are among those of a list that holds it. -/
theorem Node.mem_postorderAll {node : Node} {nodes : List Node} {item : PostItem}
    (hmem : node ∈ nodes) (hitem : item ∈ node.postorder) : item ∈ Node.postorderAll nodes := by
  induction nodes with
  | nil => cases hmem
  | cons first rest ih =>
    rw [Node.postorderAll, List.mem_append]
    rcases List.mem_cons.mp hmem with rfl | hrest
    · exact Or.inl hitem
    · exact Or.inr (ih hrest)

/-- **The statements of a program that compiles are expressions**, provided its operands hold no
blocks. -/
theorem Assembled.isExpression {program : List Node} {u : CodeUnit}
    (h : Assembled (Node.postorderAll program) u)
    (hfree : (Node.block program).operandsBlockFree = true) :
    ∀ statement ∈ Node.spliceAll program, statement.IsExpression := by
  intro statement hmem
  have hblockFree : statement.blockFree = true := Node.blockFree_of_mem_splice hfree hmem
  refine Node.isExpression_of_blockFree hblockFree ?_
  intro item hitem
  -- the items of a statement are items of the program, where they all have code
  have hprogram := Node.mem_postorderAll hmem hitem
  rw [Node.postorderAll_spliceAll] at hprogram
  exact h.hasCode item hprogram

end StackMachine
