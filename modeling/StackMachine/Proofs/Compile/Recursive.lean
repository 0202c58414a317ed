import StackMachine.Proofs.Compile.FirstDefect

/-! # Code generation by recursion

The code of a program can be told by recursion on the tree, without pending tasks: a literal appends
itself to the pool and its load to the code, a block appends its statements, a binary node its
operands and then its operation. Code generation with pending tasks gives the same unit for every
program, and the same error wherever there is one.

* **`Node.appendTo`** — the code of a tree, appended to a unit by recursion.
* **`Draft.result_emitAll`** — the walk along a post-order appends the items one after the other.
* **`compile_eq_appendTo`** — compilation is the recursion, and its instructions never come out
  malformed. -/

namespace StackMachine

/-! ## The recursive generator -/

/-- Appends a literal to the pool and the load of its index to the code, unless the pool has 65536
entries already. -/
def CodeUnit.appendLiteral (u : CodeUnit) (v : Value) : Except CompileError CodeUnit :=
  if 65536 ≤ u.pool.size then .error (.poolOverflow 65536 65535)
  else .ok ⟨u.code ++ (Instr.load (UInt16.ofNat u.pool.size)).encode, u.pool.push v⟩

/-- Appends the operation of an operator to the code, if there is one. -/
def CodeUnit.appendOperator (u : CodeUnit) (op : Operator) : Except CompileError CodeUnit :=
  match op.arith? with
  | some operation => .ok ⟨u.code ++ (Instr.apply operation).encode, u.pool⟩
  | none => .error (.unsupportedOperator op)

mutual

/-- **The code of a tree, by recursion**: a block generates its statements in order, a binary node
its left operand, its right operand and then its operator; the first error ends the generation. -/
def Node.appendTo : Node → CodeUnit → Except CompileError CodeUnit
  | .number x, u => u.appendLiteral (.number x)
  | .text s, u => u.appendLiteral (.text s)
  | .block nodes, u => Node.appendAllTo nodes u
  | .binary left op right, u => do
    let afterLeft ← left.appendTo u
    let afterRight ← right.appendTo afterLeft
    afterRight.appendOperator op
  | node, _ => .error (.unsupportedNode node.kind)

/-- The code of trees one after the other, by recursion. -/
def Node.appendAllTo : List Node → CodeUnit → Except CompileError CodeUnit
  | [], u => .ok u
  | node :: rest, u => do
    let after ← node.appendTo u
    Node.appendAllTo rest after

end

/-! ## The recursion along the post-order -/

/-- Appends the code of an item of a post-order to a unit. -/
def PostItem.appendTo (u : CodeUnit) : PostItem → Except CompileError CodeUnit
  | .literal v => u.appendLiteral v
  | .operator op => u.appendOperator op
  | .other kind => .error (.unsupportedNode kind)

/-- A node without a rule has no code. -/
theorem Node.appendTo_of_hasRule_eq_false {node : Node} (h : node.hasRule = false) (u : CodeUnit) :
    node.appendTo u = .error (.unsupportedNode node.kind) := by
  cases node <;> first | rfl | cases h

/-- The recursive generator follows the rules of code generation. -/
theorem followsRules_appendTo : FollowsRules PostItem.appendTo Node.appendTo Node.appendAllTo where
  number _ _ := rfl
  text _ _ := rfl
  binary _ _ _ _ := rfl
  block _ _ := rfl
  nil _ := rfl
  cons _ _ _ := rfl
  other _ hrule u := Node.appendTo_of_hasRule_eq_false hrule u

/-- A full draft has a unit that takes no other literal; a pool within its limit is full at exactly
65536 entries. -/
theorem Draft.appendLiteral_of_isFull {d : Draft} (hpool : d.pool.size ≤ 65536)
    (hfull : d.isFull = true) (v : Value) :
    d.toUnit.appendLiteral v = .error (.poolOverflow d.pool.size maxIndex) := by
  have hle : 65536 ≤ d.toUnit.pool.size := d.isFull_iff.mp hfull
  have hsize : d.pool.size = 65536 := Nat.le_antisymm hpool hle
  rw [CodeUnit.appendLiteral, if_pos hle, hsize, maxIndex]

/-- A draft that is not full has a unit to which the constant and its load are appended. -/
theorem Draft.appendLiteral_of_not_isFull {d : Draft} (hroom : ¬ d.isFull = true) (v : Value) :
    d.toUnit.appendLiteral v = .ok (d.load v).toUnit := by
  have hlt : ¬ 65536 ≤ d.toUnit.pool.size := mt d.isFull_iff.mpr hroom
  rw [CodeUnit.appendLiteral, if_neg hlt]
  simp [toUnit, load, encodeAll]

/-- An operation is appended to the unit of a draft as it is to the draft. -/
theorem Draft.appendOperator_of_arith? {op : Operator} {operation : Arith}
    (hop : op.arith? = some operation) (d : Draft) :
    d.toUnit.appendOperator op = .ok (d.apply operation).toUnit := by
  simp [CodeUnit.appendOperator, hop, toUnit, apply, encodeAll]

/-- **The walk along a post-order appends the code of its items one after the other**, to the unit
of a draft whose pool is within its limit. -/
theorem Draft.result_emitAll {d : Draft} (hpool : d.pool.size ≤ 65536) (items : List PostItem) :
    (d.emitAll items).result = items.foldlM PostItem.appendTo d.toUnit := by
  induction items generalizing d with
  | nil => rfl
  | cons item rest ih =>
    rw [List.foldlM_cons]
    cases item with
    | other kind => rfl
    | operator op =>
      rw [emitAll, PostItem.appendTo]
      cases hop : op.arith? with
      | none =>
        rw [CodeUnit.appendOperator, hop]
        rfl
      | some operation =>
        rw [appendOperator_of_arith? hop]
        exact ih hpool
    | literal v =>
      rw [emitAll, PostItem.appendTo]
      by_cases hfull : d.isFull = true
      · rw [if_pos hfull, appendLiteral_of_isFull hpool hfull]
        rfl
      · have hle : d.pool.size ≤ maxIndex := Nat.not_lt.mp (mt d.isFull_iff.mpr hfull)
        have hsize : (d.load v).pool.size ≤ 65536 := by
          rw [load, Array.size_push]
          exact Nat.succ_le_succ hle
        rw [if_neg hfull, appendLiteral_of_not_isFull hfull]
        exact ih hsize

/-! ## Compilation is the recursion -/

/-- A defect is never a malformed instruction. -/
theorem IsDefect.ne_encoding {before : List PostItem} {item : PostItem} {e : CompileError}
    (h : IsDefect before item e) (cause : InstrError) : e ≠ .encoding cause := by
  cases h <;> exact fun heq => nomatch heq

/-- **Compilation with pending tasks is code generation by recursion**: for every program it ends
with the same unit or the same error. The instructions that it emits never come out malformed. -/
theorem compile_eq_appendTo (program : List Node) :
    compile program = (Node.block program).appendTo .empty ∧
      ∀ cause, compile program ≠ .error (.encoding cause) := by
  refine ⟨?_, ?_⟩
  · rw [compile_eq_emitAll, Draft.result_emitAll (Nat.zero_le _)]
    exact followsRules_appendTo.foldlM_postorder (.block program) _
  · intro cause
    rcases acceptable_or_firstDefect (Node.postorderAll program) with haccept | ⟨e, hfirst⟩
    · rw [compile_of_acceptable haccept]
      exact fun heq => nomatch heq
    · rw [compile_of_firstDefect hfirst]
      obtain ⟨before, item, after, -, hdefect, -⟩ := hfirst
      exact fun heq => hdefect.ne_encoding cause (Except.error.inj heq)

end StackMachine
