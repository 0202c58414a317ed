import Mathlib.Logic.Relation
import StackMachine.Proofs.Compile.Postorder

/-! # Nesting of blocks

How statements are grouped into blocks does not matter to code generation. A block that stands among
the statements of another may be replaced by its own statements, and any node, wherever it stands,
by a block of that node alone; the program compiles to the same unit or fails with the same error.

* **`Node.Place`** — a node with one of its inner nodes taken out; **`Node.Place.fill`** puts a node
  there.
* **`Node.Regroups`** — one replacement, at the end of any path of places.
* **`Node.Regroups.postorder_eq`** — a replacement keeps the post-order, also where code generation
  does not look.
* **`compile_eq_of_regroups`** — any number of replacements leave the compilation as it is. -/

namespace StackMachine

namespace Node

/-! ## Places in a tree -/

/-- **A place in a node**: the node without one of its inner nodes. -/
inductive Place where
  /-- The left operand of a binary node. -/
  | leftOperand (op : Operator) (right : Node)
  /-- The right operand of a binary node. -/
  | rightOperand (left : Node) (op : Operator)
  /-- The operand of a unary node. -/
  | unaryOperand (op : Operator)
  /-- The result of a return statement. -/
  | returned
  /-- The target of a suffix. -/
  | suffixTarget (suffix : Suffix)
  /-- An argument of a call. -/
  | callArgument (target : Node) (before after : List Node)
  /-- The key of an access by index. -/
  | indexKey (target : Node)
  /-- A statement of a block. -/
  | statement (before after : List Node)
  /-- A statement in parentheses. -/
  | grouped (before after : List Node)
  /-- The body of a function. -/
  | functionBody (params : List String)
  /-- An item of an array. -/
  | arrayItem (before after : List Node)
  /-- An item of a set. -/
  | setItem (before after : List Node)
  /-- A key of a map. -/
  | mapKey (before : List (Node × Node)) (value : Node) (after : List (Node × Node))
  /-- A value of a map. -/
  | mapValue (before : List (Node × Node)) (key : Node) (after : List (Node × Node))
  /-- A condition of a conditional. -/
  | caseCondition (before : List (Node × Node)) (consequence : Node) (after : List (Node × Node))
  /-- A consequence of a conditional. -/
  | caseConsequence (before : List (Node × Node)) (condition : Node) (after : List (Node × Node))
  /-- A statement under test of a switch. -/
  | switchTest (before after : List Node) (cases : List (Node × Node))
  /-- A condition of a switch. -/
  | switchCondition (test : List Node) (before : List (Node × Node)) (consequence : Node)
      (after : List (Node × Node))
  /-- A consequence of a switch. -/
  | switchConsequence (test : List Node) (before : List (Node × Node)) (condition : Node)
      (after : List (Node × Node))

/-- The node with another one put at the place. -/
def Place.fill : Place → Node → Node
  | .leftOperand op right, node => .binary node op right
  | .rightOperand left op, node => .binary left op node
  | .unaryOperand op, node => .unary op node
  | .returned, node => .returns node
  | .suffixTarget suffix, node => .suffixed node suffix
  | .callArgument target before after, node => .suffixed target (.call (before ++ node :: after))
  | .indexKey target, node => .suffixed target (.index node)
  | .statement before after, node => .block (before ++ node :: after)
  | .grouped before after, node => .group (before ++ node :: after)
  | .functionBody params, node => .function params node
  | .arrayItem before after, node => .array (before ++ node :: after)
  | .setItem before after, node => .set (before ++ node :: after)
  | .mapKey before value after, node => .map (before ++ (node, value) :: after)
  | .mapValue before key after, node => .map (before ++ (key, node) :: after)
  | .caseCondition before consequence after, node =>
    .conditional (before ++ (node, consequence) :: after)
  | .caseConsequence before condition after, node =>
    .conditional (before ++ (condition, node) :: after)
  | .switchTest before after cases, node => .switch (before ++ node :: after) cases
  | .switchCondition test before consequence after, node =>
    .switch test (before ++ (node, consequence) :: after)
  | .switchConsequence test before condition after, node =>
    .switch test (before ++ (condition, node) :: after)

/-- The tree with a node put at the end of a **path**, a list of places from the root inwards. -/
def fillAt (path : List Place) (node : Node) : Node := path.foldr Place.fill node

/-- **A place sees only the post-order of what is put there**: of an operand or a statement the
post-order becomes part of the whole, and any other place is inside a node that code generation does
not look into. -/
theorem Place.postorder_fill {node node' : Node} (h : node.postorder = node'.postorder)
    (place : Place) : (place.fill node).postorder = (place.fill node').postorder := by
  cases place with
  | leftOperand op right => simp only [fill, postorder, h]
  | rightOperand left op => simp only [fill, postorder, h]
  | statement before after => simp only [fill, postorder, postorderAll_append, postorderAll, h]
  | _ => rfl

/-- A tree sees only the post-order of what is put at the end of a path. -/
theorem postorder_fillAt {node node' : Node} (h : node.postorder = node'.postorder)
    (path : List Place) : (fillAt path node).postorder = (fillAt path node').postorder := by
  induction path with
  | nil => exact h
  | cons place path ih => exact place.postorder_fill ih

/-! ## Regrouping statements -/

/-- **One change of the grouping of statements**, at the end of any path. -/
inductive Regroups : Node → Node → Prop where
  /-- A block among the statements of a block is replaced by its own statements. -/
  | splice (path : List Place) (before inner after : List Node) :
      Regroups (fillAt path (.block (before ++ .block inner :: after)))
        (fillAt path (.block (before ++ inner ++ after)))
  /-- So is a block among the statements under test of a switch. -/
  | spliceTest (path : List Place) (before inner after : List Node) (cases : List (Node × Node)) :
      Regroups (fillAt path (.switch (before ++ .block inner :: after) cases))
        (fillAt path (.switch (before ++ inner ++ after) cases))
  /-- A node is replaced by a block of this node alone. -/
  | wrap (path : List Place) (node : Node) :
      Regroups (fillAt path node) (fillAt path (.block [node]))

/-- **Regrouping keeps the post-order.** -/
theorem Regroups.postorder_eq {tree tree' : Node} (h : Regroups tree tree') :
    tree.postorder = tree'.postorder := by
  cases h with
  | splice path before inner after =>
    refine postorder_fillAt ?_ path
    simp only [postorder, postorderAll_append, postorderAll, List.append_assoc]
  | spliceTest path before inner after cases =>
    -- code generation does not look into a switch
    refine postorder_fillAt ?_ path
    rfl
  | wrap path node =>
    refine postorder_fillAt ?_ path
    simp only [postorder, postorderAll, List.append_nil]

/-- So does any number of changes, in either direction. -/
theorem postorder_eq_of_eqvGen {tree tree' : Node} (h : Relation.EqvGen Regroups tree tree') :
    tree.postorder = tree'.postorder := by
  induction h with
  | rel tree tree' hstep => exact hstep.postorder_eq
  | refl tree => rfl
  | symm tree tree' _ ih => exact ih.symm
  | trans tree middle tree' _ _ ih ih' => exact ih.trans ih'

end Node

/-- **The grouping of statements does not matter.** Two programs that differ by any number of
changes, made anywhere in the tree and in either direction, compile to the same unit or fail with
the same error. -/
theorem compile_eq_of_regroups {program program' : List Node}
    (h : Relation.EqvGen Node.Regroups (.block program) (.block program')) :
    compile program = compile program' := by
  have hpostorder : Node.postorderAll program = Node.postorderAll program' :=
    Node.postorder_eq_of_eqvGen h
  rw [compile_eq_emitAll, compile_eq_emitAll, hpostorder]

/-- An operand is put into a block, a nested block is spliced into the program, and the node that
has no code is put into a block with its operand, which is never looked at, in another. -/
theorem compile_eq_of_regroups_refused :
    let program : List Node :=
      [.binary (.text "a") .plus (.text "b"), .block [.block [.text "c"], .text "d"],
        .unary .dash (.ident "x")]
    let program' : List Node :=
      [.binary (.block [.text "a"]) .plus (.text "b"), .block [.text "c"], .text "d",
        .block [.unary .dash (.block [.ident "x"])]]
    Relation.EqvGen Node.Regroups (.block program) (.block program') ∧
      compile program = compile program' ∧ compile program' = .error (.unsupportedNode .unary) := by
  intro program program'
  let sum : Node := .binary (.block [.text "a"]) .plus (.text "b")
  let negated : Node := .unary .dash (.ident "x")
  have hoperand : Node.Regroups (.block program)
      (.block [sum, .block [.block [.text "c"], .text "d"], negated]) :=
    .wrap [.statement [] [.block [.block [.text "c"], .text "d"], negated],
      .leftOperand .plus (.text "b")] (.text "a")
  have hsplice : Node.Regroups (.block [sum, .block [.block [.text "c"], .text "d"], negated])
      (.block [sum, .block [.text "c"], .text "d", negated]) :=
    .splice [] [sum] [.block [.text "c"], .text "d"] [negated]
  have hinside : Node.Regroups (.block [sum, .block [.text "c"], .text "d", negated])
      (.block [sum, .block [.text "c"], .text "d", .unary .dash (.block [.ident "x"])]) :=
    .wrap [.statement [sum, .block [.text "c"], .text "d"] [], .unaryOperand .dash] (.ident "x")
  have haround : Node.Regroups
      (.block [sum, .block [.text "c"], .text "d", .unary .dash (.block [.ident "x"])])
      (.block program') :=
    .wrap [.statement [sum, .block [.text "c"], .text "d"] []] (.unary .dash (.block [.ident "x"]))
  have hregroups : Relation.EqvGen Node.Regroups (.block program) (.block program') :=
    .trans _ _ _ (.rel _ _ hoperand) (.trans _ _ _ (.rel _ _ hsplice)
      (.trans _ _ _ (.rel _ _ hinside) (.rel _ _ haround)))
  refine ⟨hregroups, compile_eq_of_regroups hregroups, ?_⟩
  rw [compile_eq_emitAll]
  rfl

end StackMachine
