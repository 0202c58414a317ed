import StackMachine.Proofs.Code.Decoding
import StackMachine.Proofs.Compile.Statements
import StackMachine.Proofs.StackCheck.Soundness

/-! # The stack need of expressions

An expression is evaluated above what is already on the stack and leaves one value more. How high
the stack gets on the way depends on its shape alone: the right operand is evaluated above the value
of the left one.

* **`Climbs size start items profile next`** — the check carries `profile` to `next` over the code
  of `items`, wherever this code stands.
* **`Node.need`** — the height that an expression needs above what is there;
  `Node.IsExpression.climbs` says that the check finds just this height.
* **`Assembled.check_expressions`** — the check accepts every program of expressions.
* **`Node.needAll_eq_max?`** — the need of statements is the greatest height that one of them
  reaches.
* **`check_compile_expressions`** — the heights of every compiled program of expressions. -/

namespace StackMachine

/-! ## Heights along a post-order -/

/-- The check of the code of `items`, whose literals start at the index `start` of a pool of `size`
constants, **carries `profile` to `next`**, at whatever offset the code stands. -/
def Climbs (size start : Nat) (items : List PostItem) (profile next : StackProfile) : Prop :=
  ∀ offset, StackProfile.follow size .done profile (locateFrom offset #[] (assemble start items))
    = .ok next

/-- Climbs of parts make a climb of the whole. -/
theorem Climbs.append {size start : Nat} {first second : List PostItem}
    {profile middle final : StackProfile} (hfirst : Climbs size start first profile middle)
    (hsecond : Climbs size (start + (literals first).length) second middle final) :
    Climbs size start (first ++ second) profile final := by
  intro offset
  rw [assemble_append, locateFrom_append, StackProfile.follow_append, hfirst offset]
  exact hsecond _

/-- A literal adds one value. -/
theorem climbs_literal {size start : Nat} (hsize : start < size) (hindex : start ≤ maxIndex)
    (v : Value) (greatest height : Nat) :
    Climbs size start [.literal v] ⟨greatest, height⟩ ⟨max greatest (height + 1), height + 1⟩ := by
  intro offset
  have hlt : (UInt16.ofNat start).toNat < size := by
    rw [toNat_ofNat_of_le_maxIndex hindex]
    exact hsize
  rw [assemble, locateFrom_cons, StackProfile.follow, StackProfile.advance]
  simp only [if_pos hlt]
  rfl

/-- An operator takes one value away. -/
theorem climbs_operator {op : Operator} {operation : Arith} (hop : op.arith? = some operation)
    (size start greatest height : Nat) :
    Climbs size start [.operator op] ⟨greatest, height + 2⟩
      ⟨max greatest (height + 1), height + 1⟩ := by
  intro offset
  have htwo : 2 ≤ height + 2 := Nat.le_add_left 2 height
  rw [assemble, hop]
  simp only [locateFrom_cons, StackProfile.follow, StackProfile.advance, if_pos htwo]
  rfl

/-! ## Heights of expressions -/

/-- **The stack need of an expression**: one slot for a literal; the right operand of a binary node
finds the value of the left one below it. -/
def Node.need : Node → Nat
  | .binary left _ right => max left.need (1 + right.need)
  | _ => 1

/-- Every tree needs a slot. -/
theorem Node.need_pos (node : Node) : 0 < node.need := by
  induction node using Node.ruleInduction with
  | number x => exact Nat.one_pos
  | text s => exact Nat.one_pos
  | block nodes => exact Nat.one_pos
  | binary left op right ihLeft ihRight =>
    rw [Node.need]
    omega
  | other node hrule => cases node <;> first | exact Nat.one_pos | cases hrule

/-- **An expression climbs by its need and leaves one value.** -/
theorem Node.IsExpression.climbs {node : Node} (h : node.IsExpression) {size start : Nat}
    (hsize : start + (literals node.postorder).length ≤ size)
    (hindex : start + (literals node.postorder).length ≤ maxIndex + 1) (greatest height : Nat) :
    Climbs size start node.postorder ⟨greatest, height⟩
      ⟨max greatest (height + node.need), height + 1⟩ := by
  induction h generalizing start greatest height with
  | number x => exact climbs_literal hsize (Nat.le_of_succ_le_succ hindex) _ greatest height
  | text s => exact climbs_literal hsize (Nat.le_of_succ_le_succ hindex) _ greatest height
  | @binary left right op operation hop hleft hright ihLeft ihRight =>
    rw [Node.postorder, literals_append, literals_append, List.length_append,
      List.length_append] at hsize hindex
    -- left from the start, right one value higher
    -- and with the indices behind those of the left operand
    have hclimbLeft := @ihLeft start (by omega) (by omega) greatest height
    have hclimbRight := @ihRight (start + (literals left.postorder).length) (by omega) (by omega)
      (max greatest (height + left.need)) (height + 1)
    have hclimb := hclimbLeft.append (hclimbRight.append (climbs_operator hop size _ _ height))
    -- the operator ends one value above the start,
    -- a height that the left operand has reached before
    have hpos := left.need_pos
    have hgreatest : max (max (max greatest (height + left.need)) (height + 1 + right.need))
          (height + 1)
        = max greatest (height + max left.need (1 + right.need)) := by omega
    rw [hgreatest] at hclimb
    exact hclimb

/-! ## Heights of statements -/

/-- The stack need of statements: each one finds the values of those before it below. -/
def Node.needAll : List Node → Nat
  | [] => 0
  | statement :: rest => max statement.need (1 + Node.needAll rest)

/-- Heights that statements reach one after the other, starting from `height`, are folded into the
greatest height so far as their need above `height`. -/
theorem Node.foldl_max_need (statements : List Node) {greatest height : Nat}
    (h : height ≤ greatest) :
    (statements.mapIdx fun i statement => height + i + statement.need).foldl max greatest
      = max greatest (height + Node.needAll statements) := by
  induction statements generalizing greatest height with
  | nil => simp [Node.needAll, h]
  | cons statement rest ih =>
    have hpos := statement.need_pos
    -- the others start one value higher
    have hshift : (fun i (s : Node) => height + (i + 1) + s.need)
        = fun i s => height + 1 + i + s.need := by
      funext i s
      omega
    rw [List.mapIdx_cons, List.foldl_cons, hshift, ih (by omega), Node.needAll]
    omega

/-- **The need of statements is the greatest height that one of them reaches**, the one at position
`i` above the `i` values of those before it. -/
theorem Node.needAll_eq_max? (statements : List Node) :
    Node.needAll statements
      = (statements.mapIdx fun i statement => i + statement.need).max?.getD 0 := by
  have hfold : (statements.mapIdx fun i statement => i + statement.need).foldl max 0
      = Node.needAll statements := by
    simpa using Node.foldl_max_need statements (Nat.le_refl 0)
  rw [← hfold]
  cases statements.mapIdx fun i statement => i + statement.need with
  | nil => rfl
  | cons first rest => rw [List.max?_cons', Option.getD_some, List.foldl_cons, Nat.zero_max]

/-- **Statements climb by their need and leave one value each.** -/
theorem climbs_expressions {statements : List Node}
    (h : ∀ statement ∈ statements, statement.IsExpression) {size start : Nat}
    (hsize : start + (literals (Node.postorderAll statements)).length ≤ size)
    (hindex : start + (literals (Node.postorderAll statements)).length ≤ maxIndex + 1)
    {greatest height : Nat} (hheight : height ≤ greatest) :
    Climbs size start (Node.postorderAll statements) ⟨greatest, height⟩
      ⟨max greatest (height + Node.needAll statements), height + statements.length⟩ := by
  induction statements generalizing start greatest height with
  | nil =>
    intro offset
    have hgreatest : max greatest (height + 0) = greatest := by omega
    rw [Node.needAll, hgreatest]
    rfl
  | cons statement rest ih =>
    rw [Node.postorderAll, literals_append, List.length_append] at hsize hindex
    have hpos := statement.need_pos
    have hfirst : Climbs size start statement.postorder ⟨greatest, height⟩
        ⟨max greatest (height + statement.need), height + 1⟩ :=
      (h statement List.mem_cons_self).climbs (by omega) (by omega) greatest height
    have hrest : Climbs size (start + (literals statement.postorder).length)
        (Node.postorderAll rest) ⟨max greatest (height + statement.need), height + 1⟩
        ⟨max (max greatest (height + statement.need)) (height + 1 + Node.needAll rest),
          height + 1 + rest.length⟩ :=
      ih (fun s hs => h s (List.mem_cons_of_mem _ hs)) (by omega) (by omega) (by omega)
    have hclimb := hfirst.append hrest
    -- the values of the first statement and of the others, counted from where the statements start
    have hgreatest : max (max greatest (height + statement.need)) (height + 1 + Node.needAll rest)
        = max greatest (height + max statement.need (1 + Node.needAll rest)) := by omega
    have hheights : height + 1 + rest.length = height + (rest.length + 1) := by omega
    rw [hgreatest, hheights] at hclimb
    exact hclimb

/-- **The check accepts every program of expressions** and finds the need of its statements and
their number. -/
theorem Assembled.check_expressions {program : List Node} {u : CodeUnit}
    (h : Assembled (Node.postorderAll program) u)
    (hfree : (Node.block program).operandsBlockFree = true) :
    u.check = .ok ⟨Node.needAll (Node.spliceAll program), (Node.spliceAll program).length⟩ := by
  have hexpressions := h.isExpression hfree
  have hpool : u.pool.size = (literals (Node.postorderAll (Node.spliceAll program))).length := by
    rw [h.pool_eq, Node.postorderAll_spliceAll, List.size_toArray]
  have hindex : (literals (Node.postorderAll (Node.spliceAll program))).length ≤ maxIndex + 1 := by
    rw [Node.postorderAll_spliceAll]
    exact h.length_literals_le
  have hclimb :=
    @climbs_expressions _ hexpressions u.pool.size 0 (by omega) (by omega) 0 0 (Nat.le_refl 0) 0
  rw [Node.postorderAll_spliceAll, Nat.zero_add, Nat.zero_add, Nat.zero_max] at hclimb
  rw [CodeUnit.check_of_encodeAll h.code_eq]
  exact hclimb

/-- **The heights of a program of expressions.** Whenever no block stands at or below an operand,
the compiled program passes the check. Its final height is the number of its statements, those of
nested blocks counted in place, and its greatest height is the greatest of `i` plus the need of the
statement at position `i`, or zero without statements. -/
theorem check_compile_expressions {program : List Node} {u : CodeUnit} (h : compile program = .ok u)
    (hfree : (Node.block program).operandsBlockFree = true) :
    let statements := (Node.block program).splice
    u.check = .ok ⟨(statements.mapIdx fun i statement => i + statement.need).max?.getD 0,
      statements.length⟩ := by
  intro statements
  rw [← Node.needAll_eq_max?]
  exact (assembled_of_compile h).check_expressions hfree

/-- The second of three statements, which is nested to the right, reaches a greater height than the
third, which is as long, nested to the left and evaluated one value higher. -/
theorem check_compile_expressions_nested :
    let program : List Node :=
      [.text "a",
        .block [.block [], .binary (.text "b") .plus
          (.binary (.text "c") .star (.binary (.text "d") .dash (.text "e")))],
        .binary (.binary (.binary (.text "f") .plus (.text "g")) .star (.text "h")) .slash
          (.text "i")]
    ∃ u, compile program = .ok u ∧ (Node.block program).operandsBlockFree = true ∧
      u.check = .ok ⟨5, 3⟩ := by
  intro program
  have hcompile : compile program = .ok
      ⟨encodeAll [.load 0, .load 1, .load 2, .load 3, .load 4, .apply .subtract, .apply .multiply,
        .apply .add, .load 5, .load 6, .apply .add, .load 7, .apply .multiply, .load 8,
        .apply .divide],
        #[.text "a", .text "b", .text "c", .text "d", .text "e", .text "f", .text "g", .text "h",
          .text "i"]⟩ := by
    rw [compile_eq_emitAll]
    rfl
  exact ⟨_, hcompile, rfl, check_compile_expressions hcompile rfl⟩

end StackMachine
