import StackMachine.Proofs.Code.Decoding
import StackMachine.Proofs.Compile.Postorder
import StackMachine.Proofs.Machine.LiveValues

/-! # Compiled programs on a bounded stack

A program has a meaning of its own, without code: every literal pushes its value on a stack of
bounded size, a block evaluates its statements on the same stack, and a binary node evaluates both
operands and then works on the two topmost values, wherever these come from. Running the compiled
program gives exactly this meaning, with every error and for every size of the stack.

* **`Node.eval capacity`** — the evaluation of a tree on a stack of at most `capacity` values, its
  top first.
* **`foldlM_postorder`** — evaluation goes along the post-order of the tree.
* **`foldlM_assemble`** — assembled instructions are folded as the items of the post-order are;
  `Assembled.result_traverse` says so of what they do to the live values.
* **`run_compile_eq_eval`** — the run of a compiled program is its evaluation. -/

namespace StackMachine

/-! ## Evaluation of trees -/

/-- Pushes a value on a stack of at most `capacity` values. -/
def pushBounded (capacity : Nat) (v : Value) (stack : List Value) :
    Except RuntimeError (List Value) :=
  if stack.length < capacity then .ok (v :: stack) else .error (.stackOverflow capacity)

/-- Replaces the two topmost values of a stack by the result of an operation; the right operand is
on top. -/
def Arith.onTop (op : Arith) : List Value → Except RuntimeError (List Value)
  | right :: left :: below => (op.apply left right).map fun v => v :: below
  | _ => .error .stackUnderflow

/-- What an operator does to a stack. One without an operation does nothing. -/
def Operator.onTop (op : Operator) (stack : List Value) : Except RuntimeError (List Value) :=
  match op.arith? with
  | some operation => operation.onTop stack
  | none => .ok stack

mutual

/-- **Evaluation on a bounded stack**: literals push their value, blocks evaluate their statements
in order on the same stack, binary nodes evaluate left, then right, then their operator. A node of
any other kind, which has no code, does nothing. -/
def Node.eval (capacity : Nat) : Node → List Value → Except RuntimeError (List Value)
  | .number x, stack => pushBounded capacity (.number x) stack
  | .text s, stack => pushBounded capacity (.text s) stack
  | .block nodes, stack => Node.evalAll capacity nodes stack
  | .binary left op right, stack => do
    let afterLeft ← left.eval capacity stack
    let afterRight ← right.eval capacity afterLeft
    op.onTop afterRight
  | _, stack => .ok stack

/-- The evaluation of trees one after the other on the same stack. -/
def Node.evalAll (capacity : Nat) : List Node → List Value → Except RuntimeError (List Value)
  | [], stack => .ok stack
  | node :: rest, stack => do
    let after ← node.eval capacity stack
    Node.evalAll capacity rest after

end

/-! ## Evaluation along the post-order -/

/-- What an item of a post-order does to a bounded stack. -/
def PostItem.eval (capacity : Nat) (stack : List Value) :
    PostItem → Except RuntimeError (List Value)
  | .literal v => pushBounded capacity v stack
  | .operator op => op.onTop stack
  | .other _ => .ok stack

/-- A node without a rule leaves the stack as it is. -/
theorem Node.eval_of_hasRule_eq_false {node : Node} (h : node.hasRule = false) (capacity : Nat)
    (stack : List Value) : node.eval capacity stack = .ok stack := by
  cases node <;> first | rfl | cases h

/-- Evaluation follows the rules of code generation. -/
theorem followsRules_eval (capacity : Nat) :
    FollowsRules (PostItem.eval capacity) (Node.eval capacity) (Node.evalAll capacity) where
  number _ _ := rfl
  text _ _ := rfl
  binary _ _ _ _ := rfl
  block _ _ := rfl
  nil _ := rfl
  cons _ _ _ := rfl
  other _ hrule stack := Node.eval_of_hasRule_eq_false hrule capacity stack

/-- **Evaluation goes along the post-order.** -/
theorem foldlM_postorder (capacity : Nat) (node : Node) (stack : List Value) :
    node.postorder.foldlM (PostItem.eval capacity) stack = node.eval capacity stack :=
  (followsRules_eval capacity).foldlM_postorder node stack

/-- Evaluation of a program goes along its post-order. -/
theorem foldlM_postorderAll (capacity : Nat) (program : List Node) (stack : List Value) :
    (Node.postorderAll program).foldlM (PostItem.eval capacity) stack
      = Node.evalAll capacity program stack :=
  foldlM_postorder capacity (.block program) stack

/-! ## Instructions along the post-order -/

/-- The outcome of an effect without the values that a fault leaves. -/
def Effect.result : Effect → Except RuntimeError (List Value)
  | .next live => .ok live
  | .fault e _ => .error e

/-- A traversal folds the effects of its instructions. -/
theorem result_traverse (pool : Array Value) (capacity : Nat) (live : List Value)
    (items : List Located) :
    (traverse pool capacity live items).effect.result
      = (items.map Located.instr).foldlM
          (fun live i => (i.effect pool capacity live).result) live := by
  induction items generalizing live with
  | nil => rfl
  | cons item rest ih =>
    rw [traverse, List.map_cons, List.foldlM_cons]
    cases item.instr.effect pool capacity live with
    | fault e live' => rfl
    | next live' => exact ih live'

/-- An operation does to the live values what it does to the top of a stack. -/
theorem Instr.result_effect_apply (pool : Array Value) (capacity : Nat) (live : List Value)
    (op : Arith) : ((Instr.apply op).effect pool capacity live).result = op.onTop live := by
  match live with
  | [] => rfl
  | [_] => rfl
  | right :: left :: below =>
    rw [Instr.effect, Arith.onTop]
    cases op.apply left right <;> rfl

/-- A load of a constant pushes it. -/
theorem Instr.result_effect_load {pool : Array Value} {index : UInt16} {v : Value}
    (h : pool[index.toNat]? = some v) (capacity : Nat) (live : List Value) :
    ((Instr.load index).effect pool capacity live).result = pushBounded capacity v live := by
  simp only [Instr.effect, h, pushBounded]
  split <;> rfl

/-- **Assembled instructions are folded as the items of the post-order are**, by steps that agree on
operators and on literals, when the pool holds the literals behind `before.length` other
constants. -/
theorem foldlM_assemble {m : Type → Type} [Monad m] {σ : Type} {pool : Array Value}
    {onInstr : σ → Instr → m σ} {onItem : σ → PostItem → m σ}
    (hload : ∀ {index : UInt16} {v : Value}, pool[index.toNat]? = some v →
      ∀ s, onInstr s (.load index) = onItem s (.literal v))
    (happly : ∀ {op : Operator} {operation : Arith}, op.arith? = some operation →
      ∀ s, onInstr s (.apply operation) = onItem s (.operator op))
    (before behind : List Value) {items : List PostItem}
    (hcode : ∀ item ∈ items, item.hasCode = true)
    (hpool : pool = (before ++ literals items ++ behind).toArray)
    (hfits : before.length + (literals items).length ≤ maxIndex + 1) (s : σ) :
    (assemble before.length items).foldlM onInstr s = items.foldlM onItem s := by
  induction items generalizing before s with
  | nil => rfl
  | cons item rest ih =>
    have hcodeRest : ∀ item ∈ rest, item.hasCode = true :=
      fun item h => hcode item (List.mem_cons_of_mem _ h)
    cases item with
    | other kind =>
      have hother := hcode (.other kind) List.mem_cons_self
      cases hother
    | operator op =>
      have hop : op.arith?.isSome = true := hcode (.operator op) List.mem_cons_self
      obtain ⟨operation, hoperation⟩ := Option.isSome_iff_exists.mp hop
      rw [assemble, hoperation]
      simp only [List.foldlM_cons, happly hoperation]
      congr 1
      funext after
      exact ih before hcodeRest hpool hfits after
    | literal v =>
      rw [literals, List.length_cons] at hfits
      -- the literal is the first constant behind `before`
      have hindex : (UInt16.ofNat before.length).toNat = before.length :=
        toNat_ofNat_of_le_maxIndex (by omega)
      have hconstant : pool[(UInt16.ofNat before.length).toNat]? = some v := by
        rw [hindex, hpool, literals]
        simp
      rw [assemble, List.foldlM_cons, List.foldlM_cons, hload hconstant]
      congr 1
      funext after
      have hpoolRest : pool = (before ++ [v] ++ literals rest ++ behind).toArray := by
        rw [hpool, literals, List.append_assoc before [v], List.singleton_append]
      have hlength : (before ++ [v]).length = before.length + 1 := List.length_append
      have hrest := ih (before ++ [v]) hcodeRest hpoolRest (by omega) after
      rwa [hlength] at hrest

/-- **The first items of a unit** are folded as their instructions are: the pool holds their
literals in front of those of the others. -/
theorem Assembled.foldlM_assemble {m : Type → Type} [Monad m] {σ : Type}
    {before after : List PostItem} {u : CodeUnit}
    (h : Assembled (before ++ after) u) {onInstr : σ → Instr → m σ} {onItem : σ → PostItem → m σ}
    (hload : ∀ {index : UInt16} {v : Value}, u.pool[index.toNat]? = some v →
      ∀ s, onInstr s (.load index) = onItem s (.literal v))
    (happly : ∀ {op : Operator} {operation : Arith}, op.arith? = some operation →
      ∀ s, onInstr s (.apply operation) = onItem s (.operator op)) (s : σ) :
    (assemble 0 before).foldlM onInstr s = before.foldlM onItem s := by
  have hcode : ∀ item ∈ before, item.hasCode = true :=
    fun item hitem => h.hasCode item (List.mem_append_left _ hitem)
  have hpool : u.pool = ([] ++ literals before ++ literals after).toArray := by
    rw [List.nil_append, ← literals_append, h.pool_eq]
  have hfits : ([] : List Value).length + (literals before).length ≤ maxIndex + 1 := by
    have hall := h.length_literals_le
    rw [literals_append, List.length_append] at hall
    rw [List.length_nil]
    omega
  exact StackMachine.foldlM_assemble hload happly [] (literals after) hcode hpool hfits s

/-! ## The run of a compiled program -/

/-- The traversal of a unit whose code is an encoding goes through the encoded instructions to the
end. -/
theorem CodeUnit.effect_traverse {u : CodeUnit} {instrs : List Instr}
    (h : u.code = encodeAll instrs) (capacity : Nat) :
    (u.traverse capacity).effect
      = (StackMachine.traverse u.pool capacity [] (locate instrs)).effect := by
  rw [CodeUnit.traverse, h, decode_encodeAll, Traversal.andThen_conclude_done]

/-- **The traversal of an assembled unit folds the items of the post-order.** -/
theorem Assembled.result_traverse {items : List PostItem} {u : CodeUnit} (h : Assembled items u)
    (capacity : Nat) :
    (u.traverse capacity).effect.result = items.foldlM (PostItem.eval capacity) [] := by
  rw [CodeUnit.effect_traverse h.code_eq, StackMachine.result_traverse, locate,
    map_instr_locateFrom]
  rw [← List.append_nil items] at h
  refine h.foldlM_assemble ?_ ?_ []
  · intro index v hv live
    exact Instr.result_effect_load hv capacity live
  · intro op operation hop live
    rw [Instr.result_effect_apply, PostItem.eval, Operator.onTop, hop]

/-- A run whose traversal goes to the end halts with the values that it leaves. -/
theorem Machine.run_load_of_result_ok {u : CodeUnit} {capacity : Nat} {stack : List Value}
    (h : (u.traverse capacity).effect.result = .ok stack) :
    (Machine.load u capacity).run.result = .ok stack.head? ∧
      (Machine.load u capacity).run.machine.phase = .halted ∧
      (Machine.load u capacity).run.machine.stack.values = stack.reverse := by
  rw [Machine.run_load, Traversal.outcome]
  rcases heffect : (u.traverse capacity).effect with live | ⟨e, live⟩
  · rw [heffect] at h
    obtain rfl : live = stack := Except.ok.inj h
    exact ⟨rfl, rfl, OperandStack.values_holding capacity live⟩
  · rw [heffect] at h
    cases h

/-- A run whose traversal ends in an error fails with it. -/
theorem Machine.run_load_of_result_error {u : CodeUnit} {capacity : Nat} {e : RuntimeError}
    (h : (u.traverse capacity).effect.result = .error e) :
    (Machine.load u capacity).run.result = .error e ∧
      (Machine.load u capacity).run.machine.phase = .faulted := by
  rw [Machine.run_load, Traversal.outcome]
  rcases heffect : (u.traverse capacity).effect with live | ⟨e', live⟩
  · rw [heffect] at h
    cases h
  · rw [heffect] at h
    obtain rfl : e' = e := Except.error.inj h
    exact ⟨rfl, rfl⟩

/-- **A compiled program runs as it evaluates.** For every size of the stack, the run ends in the
error of the evaluation, or halts with the values that the evaluation leaves and with the topmost of
them as its result. -/
theorem run_compile_eq_eval {program : List Node} {u : CodeUnit} (h : compile program = .ok u)
    (capacity : Nat) :
    match (Node.block program).eval capacity [] with
    | .ok stack =>
      (Machine.load u capacity).run.result = .ok stack.head? ∧
        (Machine.load u capacity).run.machine.phase = .halted ∧
        (Machine.load u capacity).run.machine.stack.values = stack.reverse
    | .error e =>
      (Machine.load u capacity).run.result = .error e ∧
        (Machine.load u capacity).run.machine.phase = .faulted := by
  have heval : (Node.block program).eval capacity [] = (u.traverse capacity).effect.result := by
    rw [(assembled_of_compile h).result_traverse, ← foldlM_postorder, Node.postorder]
  rw [heval]
  cases hresult : (u.traverse capacity).effect.result with
  | ok stack => exact Machine.run_load_of_result_ok hresult
  | error e => exact Machine.run_load_of_result_error hresult

/-- A block as an operand may leave more than one value: the operator takes the topmost one, and the
run shows it. -/
theorem run_compile_eq_eval_block_operand :
    let program : List Node := [.binary (.block [.text "a", .text "b"]) .plus (.block [.text "c"])]
    let u : CodeUnit :=
      ⟨encodeAll [.load 0, .load 1, .load 2, .apply .add], #[.text "a", .text "b", .text "c"]⟩
    compile program = .ok u ∧ (Machine.load u 3).run.result = .ok (some (.text "bc")) ∧
      (Machine.load u 3).run.machine.stack.values = [.text "a", .text "bc"] ∧
      (Machine.load u 2).run.result = .error (.stackOverflow 2) := by
  intro program u
  have hcompile : compile program = .ok u := by
    rw [compile_eq_emitAll]
    rfl
  have hthree := run_compile_eq_eval hcompile 3
  have htwo := run_compile_eq_eval hcompile 2
  exact ⟨hcompile, hthree.1, hthree.2.2, htwo.1⟩

end StackMachine
