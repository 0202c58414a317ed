import StackMachine.Proofs.Compile.Events
import StackMachine.Proofs.Compile.Expressions
import StackMachine.Proofs.Machine.Composition
import StackMachine.Proofs.Machine.KindFlow

/-! # Kinds of expressions

Literals show their kinds, and operators give a kind to the expressions built with them: an operator
over operands of given kinds has a result of a known kind, or is a **mismatch**. Kinds can therefore
be inferred without any value, and what they say about a program is what its run does: without a
mismatch the run leaves values of the inferred kinds, and with one it fails at the first of them, as
a type error that names the operation and both kinds. Only a division by zero can come first.

* **`Node.valueKind?`** — the inferred kind of an expression.
* **`Node.verdicts`** — one verdict for each item of the post-order: the mismatch there, or none.
* **`Clear`** and **`FirstMismatch`** — items without mismatch, and items with a first one; an
  expression is one of them (`Node.IsExpression.judged`), and so are statements
  (`judged_expressions`).
* **`Assembled.run_of_clear`** and **`Assembled.run_of_mismatch`** — what units of such items do
  when they run: they halt or fail as the kinds tell, or divide by zero first (`DividesByZero`).
* **`run_compile_kinds`** — the runs of programs of expressions, with and without mismatches. -/

namespace StackMachine

/-! ## Inference -/

/-- **The inferred kind of an expression**: literals have theirs, and a binary node has the one that
its operation gives to the kinds of its operands. -/
def Node.valueKind? : Node → Option Kind
  | .number _ => some .number
  | .text _ => some .text
  | .binary left op right => do
    let operation ← op.arith?
    let leftKind ← left.valueKind?
    let rightKind ← right.valueKind?
    operation.kind? leftKind rightKind
  | _ => none

/-- A **mismatch**: an operation over operands of kinds that do not go with it. -/
structure KindMismatch where
  /-- The operation. -/
  op : Arith
  /-- The kind of the left operand. -/
  left : Kind
  /-- The kind of the right operand. -/
  right : Kind
deriving DecidableEq

/-- **The verdict on an operator**: the mismatch, if both operands have a kind and the result has
none. -/
def Operator.verdict (op : Operator) (left right : Option Kind) : Option KindMismatch :=
  match op.arith?, left, right with
  | some operation, some leftKind, some rightKind =>
    if (operation.kind? leftKind rightKind).isSome then none
    else some ⟨operation, leftKind, rightKind⟩
  | _, _, _ => none

/-- **The verdicts on an expression**, one for each item of its post-order. -/
def Node.verdicts : Node → List (Option KindMismatch)
  | .binary left op right =>
    left.verdicts ++ (right.verdicts ++ [op.verdict left.valueKind? right.valueKind?])
  | _ => [none]

/-! ## Kinds along the post-order -/

/-- The kinds on the stack behind an item of a post-order. -/
def PostItem.kinds? (kinds : List Kind) : PostItem → Option (List Kind)
  | .literal v => some (v.kind :: kinds)
  | .operator op => op.arith?.bind fun operation => operation.kinds? kinds
  | .other _ => none

/-- **Clear items**: none of their verdicts is a mismatch, and along them the kinds on the stack go
from `kinds` to `next`. -/
structure Clear (kinds : List Kind) (items : List PostItem) (verdicts : List (Option KindMismatch))
    (next : List Kind) : Prop where
  /-- There is a verdict for each item, and it is no mismatch. -/
  verdicts_eq : verdicts = List.replicate items.length none
  /-- The kinds behind the items. -/
  kinds_eq : items.foldlM PostItem.kinds? kinds = some next

/-- **Items with a first mismatch**: those before it are clear, and leave operands of the kinds that
it names on top of the stack. -/
def FirstMismatch (kinds : List Kind) (items : List PostItem)
    (verdicts : List (Option KindMismatch)) : Prop :=
  ∃ before op after clear m rest below, items = before ++ .operator op :: after ∧
    verdicts = clear ++ some m :: rest ∧
    Clear kinds before clear (m.right :: m.left :: below) ∧ op.arith? = some m.op ∧
    m.op.kind? m.left m.right = none

section Along

variable {kinds middle next : List Kind} {first second : List PostItem}
  {verdicts verdicts' : List (Option KindMismatch)}

/-- Clear items behind clear items are clear. -/
theorem Clear.append (hfirst : Clear kinds first verdicts middle)
    (hsecond : Clear middle second verdicts' next) :
    Clear kinds (first ++ second) (verdicts ++ verdicts') next := by
  refine ⟨?_, ?_⟩
  · rw [hfirst.verdicts_eq, hsecond.verdicts_eq, List.replicate_append_replicate,
      List.length_append]
  · rw [List.foldlM_append, hfirst.kinds_eq]
    exact hsecond.kinds_eq

/-- A first mismatch behind clear items is the first one of all. -/
theorem Clear.firstMismatch (hfirst : Clear kinds first verdicts middle)
    (hsecond : FirstMismatch middle second verdicts') :
    FirstMismatch kinds (first ++ second) (verdicts ++ verdicts') := by
  obtain ⟨before, op, after, clear, m, rest, below, rfl, rfl, hclear, hop, hkind⟩ := hsecond
  exact ⟨first ++ before, op, after, verdicts ++ clear, m, rest, below,
    (List.append_assoc _ _ _).symm, (List.append_assoc _ _ _).symm, hfirst.append hclear,
    hop, hkind⟩

/-- A first mismatch stays the first one, whatever follows. -/
theorem FirstMismatch.append (h : FirstMismatch kinds first verdicts) (second : List PostItem)
    (verdicts' : List (Option KindMismatch)) :
    FirstMismatch kinds (first ++ second) (verdicts ++ verdicts') := by
  obtain ⟨before, op, after, clear, m, rest, below, rfl, rfl, hclear, hop, hkind⟩ := h
  refine ⟨before, op, after ++ second, clear, m, rest ++ verdicts', below, ?_, ?_, hclear,
    hop, hkind⟩
  · rw [List.append_assoc, List.cons_append]
  · rw [List.append_assoc, List.cons_append]

/-- A literal is clear. -/
theorem clear_literal (v : Value) (kinds : List Kind) :
    Clear kinds [.literal v] [none] (v.kind :: kinds) :=
  ⟨rfl, rfl⟩

end Along

/-! ## Judging expressions -/

/-- **An operator over operands of known kinds** has a kind and is clear, or is a mismatch. -/
theorem judged_operator {op : Operator} {operation : Arith} (hop : op.arith? = some operation)
    (leftKind rightKind : Kind) (kinds : List Kind) :
    (∃ kind, operation.kind? leftKind rightKind = some kind ∧
      Clear (rightKind :: leftKind :: kinds) [.operator op]
        [op.verdict (some leftKind) (some rightKind)] (kind :: kinds)) ∨
    FirstMismatch (rightKind :: leftKind :: kinds) [.operator op]
      [op.verdict (some leftKind) (some rightKind)] := by
  cases hkind : operation.kind? leftKind rightKind with
  | some kind =>
    have hverdict : op.verdict (some leftKind) (some rightKind) = none := by
      simp [Operator.verdict, hop, hkind]
    refine Or.inl ⟨kind, rfl, ?_, ?_⟩
    · rw [hverdict]
      rfl
    · simp [PostItem.kinds?, hop, Arith.kinds?, hkind]
  | none =>
    have hverdict : op.verdict (some leftKind) (some rightKind)
        = some ⟨operation, leftKind, rightKind⟩ := by
      simp [Operator.verdict, hop, hkind]
    rw [hverdict]
    exact Or.inr ⟨[], op, [], [], ⟨operation, leftKind, rightKind⟩, [], kinds, rfl, rfl, ⟨rfl, rfl⟩,
      hop, hkind⟩

/-- **An expression has a kind and is clear, or it has a first mismatch**, whatever kinds lie
below. -/
theorem Node.IsExpression.judged {node : Node} (h : node.IsExpression) (kinds : List Kind) :
    (∃ kind, node.valueKind? = some kind ∧
      Clear kinds node.postorder node.verdicts (kind :: kinds)) ∨
      FirstMismatch kinds node.postorder node.verdicts := by
  induction h generalizing kinds with
  | number x => exact Or.inl ⟨.number, rfl, clear_literal (.number x) kinds⟩
  | text s => exact Or.inl ⟨.text, rfl, clear_literal (.text s) kinds⟩
  | @binary left right op operation hop hleft hright ihLeft ihRight =>
    rw [Node.postorder, Node.verdicts, Node.valueKind?, hop]
    -- the first mismatch is one of the left operand, of the right one, or the operator
    rcases ihLeft kinds with ⟨leftKind, hleftKind, hclearLeft⟩ | hmismatch
    · rcases ihRight (leftKind :: kinds) with ⟨rightKind, hrightKind, hclearRight⟩ | hmismatch
      · rw [hleftKind, hrightKind]
        rcases judged_operator hop leftKind rightKind kinds with ⟨kind, hkind, hclear⟩ | hmismatch
        · exact Or.inl ⟨kind, hkind, hclearLeft.append (hclearRight.append hclear)⟩
        · exact Or.inr (hclearLeft.firstMismatch (hclearRight.firstMismatch hmismatch))
      · exact Or.inr (hclearLeft.firstMismatch (hmismatch.append _ _))
    · exact Or.inr (hmismatch.append _ _)

/-- **Statements have kinds and are clear, or there is a first mismatch among them.** -/
theorem judged_expressions {statements : List Node}
    (h : ∀ statement ∈ statements, statement.IsExpression) (kinds : List Kind) :
    (∃ found, statements.mapM Node.valueKind? = some found ∧
      Clear kinds (Node.postorderAll statements) (statements.flatMap Node.verdicts)
        (found.reverse ++ kinds)) ∨
    FirstMismatch kinds (Node.postorderAll statements) (statements.flatMap Node.verdicts) := by
  induction statements generalizing kinds with
  | nil => exact Or.inl ⟨[], rfl, rfl, rfl⟩
  | cons statement rest ih =>
    obtain ⟨hstatement, hrest⟩ := List.forall_mem_cons.mp h
    rw [Node.postorderAll, List.flatMap_cons, List.mapM_cons]
    rcases hstatement.judged kinds with ⟨kind, hkind, hclear⟩ | hmismatch
    · rcases ih hrest (kind :: kinds) with ⟨found, hfound, hclearRest⟩ | hmismatch
      · refine Or.inl ⟨kind :: found, ?_, ?_⟩
        · rw [hkind, hfound]
          rfl
        · rw [List.reverse_cons, List.append_assoc, List.singleton_append]
          exact hclear.append hclearRest
      · exact Or.inr (hclear.firstMismatch hmismatch)
    · exact Or.inr (hmismatch.append _ _)

/-! ## First mismatches by position -/

section Position

variable {kinds next : List Kind} {items : List PostItem} {verdicts : List (Option KindMismatch)}

/-- No verdict on clear items is a mismatch. -/
theorem Clear.getElem?_ne (h : Clear kinds items verdicts next) (position : Nat)
    (m : KindMismatch) :
    verdicts[position]? ≠ some (some m) := by
  intro hm
  rw [h.verdicts_eq] at hm
  cases List.eq_of_mem_replicate (List.mem_of_getElem? hm)

/-- A first mismatch is among the verdicts. -/
theorem FirstMismatch.exists_mem (h : FirstMismatch kinds items verdicts) :
    ∃ m, some m ∈ verdicts := by
  obtain ⟨before, op, after, clear, m, rest, below, -, rfl, -⟩ := h
  exact ⟨m, by simp⟩

/-- **The first mismatch, by position**: it stands at an operator, and the items before it are
clear. -/
theorem FirstMismatch.of_getElem? (h : FirstMismatch kinds items verdicts) {position : Nat}
    {m : KindMismatch} (hm : verdicts[position]? = some (some m))
    (hearlier : ∀ earlier < position, verdicts[earlier]? = some none) :
    ∃ before op after clear below, items = before ++ .operator op :: after ∧
      before.length = position ∧
      Clear kinds before clear (m.right :: m.left :: below) ∧ op.arith? = some m.op ∧
      m.op.kind? m.left m.right = none := by
  obtain ⟨before, op, after, clear, found, rest, below, rfl, rfl, hclear, hop, hkind⟩ := h
  have hlength : clear.length = before.length := by rw [hclear.verdicts_eq, List.length_replicate]
  have hfound : (clear ++ some found :: rest)[before.length]? = some (some found) := by
    simp [← hlength]
  rcases Nat.lt_trichotomy position before.length with hlt | rfl | hlt
  · -- the verdicts before it are no mismatches
    rw [List.getElem?_append_left (by omega)] at hm
    exact absurd hm (hclear.getElem?_ne position m)
  · rw [hfound] at hm
    cases hm
    exact ⟨before, op, after, clear, below, rfl, rfl, hclear, hop, hkind⟩
  · rw [hearlier _ hlt] at hfound
    cases hfound

end Position

/-! ## Runs along the kinds -/

/-- **A run divides by zero**, at one of the first `count` instructions of its unit. -/
structure DividesByZero (u : CodeUnit) (capacity count : Nat) : Prop where
  /-- The run ends in a division by zero. -/
  result_eq : (Machine.load u capacity).run.result = .error .divideByZero
  /-- It does so at a division, which is one of these instructions. -/
  exists_site : ∃ index offset, index < count ∧
    (decode u.code).instrs[index]? = some ⟨offset, .apply .divide⟩ ∧
    (Machine.load u capacity).run.faultSite? = some (offset, some (.arith .divide))

section Runs

variable {before after items : List PostItem} {verdicts : List (Option KindMismatch)}
  {kinds : List Kind} {u : CodeUnit} {profile : StackProfile} {capacity : Nat}

/-- The instructions of the first items of a unit, and those of the others behind them. -/
theorem Assembled.decode_append (h : Assembled (before ++ after) u) :
    decode u.code
      = ⟨locate (assemble 0 before) ++ locateFrom (encodeAll (assemble 0 before)).length #[]
      (assemble (literals before).length after), .done⟩ := by
  rw [h.decode_eq, assemble_append, Nat.zero_add, locate_append]

/-- A unit is traversed along its first items and then along the others. -/
theorem Assembled.traverse_append (h : Assembled (before ++ after) u) (capacity : Nat) :
    u.traverse capacity
      = (traverse u.pool capacity [] (locate (assemble 0 before))).andThen fun live =>
        traverse u.pool capacity live
          (locateFrom (encodeAll (assemble 0 before)).length #[]
            (assemble (literals before).length after)) := by
  rw [CodeUnit.traverse, h.decode_append, Traversal.andThen_conclude_done,
    StackMachine.traverse_append]

/-- The first items have as many instructions as they are. -/
theorem Assembled.length_locate_assemble (h : Assembled (before ++ after) u) :
    (locate (assemble 0 before)).length = before.length := by
  rw [length_locate, length_assemble 0 fun item hitem =>
    h.hasCode item (List.mem_append_left _ hitem)]

/-- **Kinds go along the instructions as along the items.** -/
theorem Assembled.foldlM_kinds? (h : Assembled (before ++ after) u) (kinds : List Kind) :
    (assemble 0 before).foldlM (Instr.kinds? u.pool) kinds
      = before.foldlM PostItem.kinds? kinds := by
  refine h.foldlM_assemble ?_ ?_ kinds
  · intro index v hv kinds
    rw [Instr.kinds?, hv]
    rfl
  · intro op operation hop kinds
    rw [Instr.kinds?, PostItem.kinds?, hop]
    rfl

/-- A division by zero along the first items is one of the run. -/
theorem Assembled.dividesByZero (h : Assembled (before ++ after) u) {left : List Value}
    (hzero : (traverse u.pool capacity [] (locate (assemble 0 before))).effect
      = .fault .divideByZero left) :
    DividesByZero u capacity before.length := by
  have htraverse := h.traverse_append capacity
  rw [Traversal.andThen_of_fault hzero] at htraverse
  obtain ⟨first, ⟨offset, i⟩, rest, middle, hsplit, -, hfails, hsite⟩ :=
    exists_executes_of_traverse hzero
  obtain rfl : i = .apply .divide := hfails.eq_divide
  have hcount := h.length_locate_assemble
  rw [hsplit, List.length_append, List.length_cons] at hcount
  refine ⟨Machine.result_run_load_eq_error_iff.mpr ⟨left, ?_⟩, first.length, offset,
    by omega, ?_, ?_⟩
  · rw [htraverse, hzero]
  · rw [h.decode_append, hsplit]
    simp
  · rw [Machine.faultSite?_run_load, htraverse, hsite]
    rfl

/-- **Clear items leave values of their kinds, or the run divides by zero** at one of them, on
enough slots. -/
theorem Assembled.effect_of_clear (h : Assembled (before ++ after) u)
    (hclear : Clear [] before verdicts kinds) (hcheck : u.check = .ok profile)
    (hmax : profile.maxDepth ≤ capacity) :
    (∃ live, (traverse u.pool capacity [] (locate (assemble 0 before))).effect = .next live ∧
      live.map Value.kind = kinds) ∨ DividesByZero u capacity before.length := by
  have hflow :
      OfKinds capacity kinds (traverse u.pool capacity [] (locate (assemble 0 before))).effect := by
    refine ofKinds_traverse ?_
    rw [locate, map_instr_locateFrom, List.map_nil, h.foldlM_kinds?, hclear.kinds_eq]
  cases heffect : (traverse u.pool capacity [] (locate (assemble 0 before))).effect with
  | next live =>
    rw [heffect] at hflow
    cases hflow with
    | next hlive => exact Or.inl ⟨live, rfl, hlive⟩
  | fault e left =>
    rw [heffect] at hflow
    cases hflow with
    | divideByZero => exact Or.inr (h.dividesByZero heffect)
    | overflow =>
      -- the check has made room for all values
      refine absurd ?_ (CodeUnit.effect_ne_overflow_of_check hcheck hmax capacity left)
      rw [h.traverse_append, Traversal.andThen_of_fault heffect, heffect]

/-- **A unit of clear items halts with values of their kinds**, or divides by zero. -/
theorem Assembled.run_of_clear (h : Assembled items u) (hclear : Clear [] items verdicts kinds)
    (hcheck : u.check = .ok profile) (hmax : profile.maxDepth ≤ capacity) :
    ((∃ top?, (Machine.load u capacity).run.result = .ok top?) ∧
      (Machine.load u capacity).run.machine.phase = .halted ∧
      (Machine.load u capacity).run.machine.stack.values.map Value.kind = kinds.reverse) ∨
    DividesByZero u capacity items.length := by
  have hall : Assembled (items ++ []) u := by rwa [List.append_nil]
  rcases hall.effect_of_clear hclear hcheck hmax with ⟨live, heffect, rfl⟩ | hzero
  · have hresult : (u.traverse capacity).effect.result = .ok live := by
      rw [CodeUnit.effect_traverse h.code_eq, heffect]
      rfl
    obtain ⟨hok, hphase, hvalues⟩ := Machine.run_load_of_result_ok hresult
    refine Or.inl ⟨⟨_, hok⟩, hphase, ?_⟩
    rw [hvalues, List.map_reverse]
  · exact Or.inr hzero

/-- **A unit with a first mismatch fails there**, or divides by zero at an earlier instruction. -/
theorem Assembled.run_of_mismatch {op : Operator} {m : KindMismatch} {below : List Kind}
    (h : Assembled (before ++ .operator op :: after) u)
    (hclear : Clear [] before verdicts (m.right :: m.left :: below)) (hop : op.arith? = some m.op)
    (hkind : m.op.kind? m.left m.right = none) (hcheck : u.check = .ok profile)
    (hmax : profile.maxDepth ≤ capacity) :
    ∃ offset, (decode u.code).instrs[before.length]? = some ⟨offset, .apply m.op⟩ ∧
      ((Machine.load u capacity).run.result = .error (.typeMismatch m.op m.left m.right) ∧
        (Machine.load u capacity).run.faultSite? = some (offset, some (.arith m.op)) ∨
      DividesByZero u capacity before.length) := by
  have hrest : assemble (literals before).length (.operator op :: after)
      = .apply m.op :: assemble (literals before).length after := by
    simp only [assemble, hop]
  have hcount := h.length_locate_assemble
  refine ⟨(encodeAll (assemble 0 before)).length, ?_, ?_⟩
  · rw [h.decode_append, hrest, locateFrom_cons, List.getElem?_append_right (Nat.le_of_eq hcount),
      hcount, Nat.sub_self]
    rfl
  · rcases h.effect_of_clear hclear hcheck hmax with ⟨live, heffect, hlive⟩ | hzero
    · -- the operator finds values of kinds that do not go with it
      have hoperator : ∃ left, (Instr.apply m.op).effect u.pool capacity live
          = .fault (.typeMismatch m.op m.left m.right) left :=
            Instr.effect_apply_of_kind?_eq_none hlive hkind
      obtain ⟨left, hfault⟩ := hoperator
      have hfails : traverse u.pool capacity live
          (locateFrom (encodeAll (assemble 0 before)).length #[]
          (assemble (literals before).length (.operator op :: after)))
          = ⟨.fault (.typeMismatch m.op m.left m.right) left,
            [.exec (encodeAll (assemble 0 before)).length (.arith m.op) live.length]⟩ := by
        rw [hrest, locateFrom_cons, traverse, hfault, Traversal.andThen_fault]
        rfl
      refine Or.inl ⟨Machine.result_run_load_eq_error_iff.mpr ⟨left, ?_⟩, ?_⟩
      · rw [h.traverse_append, Traversal.effect_andThen heffect, hfails]
      · rw [Machine.faultSite?_run_load, h.traverse_append]
        refine faultSite?_andThen heffect ?_
        rw [hfails]
        rfl
    · exact Or.inr hzero

end Runs

/-! ## Programs of expressions -/

/-- **Kinds of expressions are sound.** Whenever no block stands at or below an operand, the
compiled program passes the check, and on at least as many slots as the check says its run does what
the kinds tell. If no verdict is a mismatch, all statements have kinds, and the run halts with
values of these kinds or divides by zero. If there are mismatches, the instruction at the position
of the first one is its operation, and the run fails there with a type error that names the
operation and both kinds, or divides by zero at an earlier instruction. -/
theorem run_compile_kinds {program : List Node} {u : CodeUnit} (h : compile program = .ok u)
    (hfree : (Node.block program).operandsBlockFree = true) :
    let statements := (Node.block program).splice
    let verdicts := statements.flatMap Node.verdicts
    ∃ profile, u.check = .ok profile ∧ ∀ capacity, profile.maxDepth ≤ capacity →
      let r := (Machine.load u capacity).run
      ((∀ verdict ∈ verdicts, verdict = none) →
        ∃ kinds, statements.mapM Node.valueKind? = some kinds ∧
          (((∃ top?, r.result = .ok top?) ∧ r.machine.phase = .halted ∧
            r.machine.stack.values.map Value.kind = kinds) ∨ r.result = .error .divideByZero)) ∧
      ∀ position m, verdicts[position]? = some (some m) →
        (∀ earlier < position, verdicts[earlier]? = some none) →
        ∃ offset, (decode u.code).instrs[position]? = some ⟨offset, .apply m.op⟩ ∧
          (r.result = .error (.typeMismatch m.op m.left m.right) ∧
            r.faultSite? = some (offset, some (.arith m.op)) ∨
              DividesByZero u capacity position) := by
  intro statements verdicts
  have hassembled := assembled_of_compile h
  have hcheck := hassembled.check_expressions hfree
  have hjudged := judged_expressions (hassembled.isExpression hfree) []
  rw [Node.postorderAll_spliceAll] at hjudged
  refine ⟨_, hcheck, ?_⟩
  intro capacity hmax r
  rcases hjudged with ⟨kinds, hkinds, hclear⟩ | hmismatch
  · rw [List.append_nil] at hclear
    refine ⟨?_, ?_⟩
    · intro hnone
      refine ⟨kinds, hkinds, ?_⟩
      rcases hassembled.run_of_clear hclear hcheck hmax with hhalts | hzero
      · rw [List.reverse_reverse] at hhalts
        exact Or.inl hhalts
      · exact Or.inr hzero.result_eq
    · intro position m hm
      exact absurd hm (hclear.getElem?_ne position m)
  · refine ⟨?_, ?_⟩
    · intro hnone
      obtain ⟨m, hm⟩ := hmismatch.exists_mem
      cases hnone (some m) hm
    · intro position m hm hearlier
      obtain ⟨before, op, after, clear, below, hitems, rfl, hclear, hop, hkind⟩ :=
        hmismatch.of_getElem? hm hearlier
      rw [hitems] at hassembled
      exact hassembled.run_of_mismatch hclear hop hkind hcheck hmax

/-- The sum of a quotient and a text is the first of two mismatches, and the run fails at it; if the
divisor is zero, the run fails at the quotient. Without the statements that have mismatches it
leaves a text. -/
theorem run_compile_kinds_quotient :
    let joined : List Node := [.block [.binary (.text "a") .plus (.text "b"), .block []]]
    let program (divisor : Binary64) : List Node := joined ++
      [.binary (.binary (.number .nan) .slash (.number divisor)) .plus (.text "c"),
        .binary (.text "d") .dash (.text "e")]
    let u (divisor : Binary64) : CodeUnit :=
      ⟨encodeAll [.load 0, .load 1, .apply .add, .load 2, .load 3, .apply .divide, .load 4,
        .apply .add, .load 5, .load 6, .apply .subtract],
        #[.text "a", .text "b", .number .nan, .number divisor, .text "c", .text "d", .text "e"]⟩
    (∀ divisor, compile (program divisor) = .ok (u divisor)) ∧
      (∀ divisor, (Node.block (program divisor)).splice.flatMap Node.verdicts
        = List.replicate 7 none ++ [some ⟨.add, .number, .text⟩, none, none,
          some ⟨.subtract, .text, .text⟩]) ∧
      (Machine.load (u .nan) 4).run.result = .error (.typeMismatch .add .number .text) ∧
      (∃ offset, (decode (u .nan).code).instrs[7]? = some ⟨offset, .apply .add⟩ ∧
        (Machine.load (u .nan) 4).run.faultSite? = some (offset, some (.arith .add))) ∧
      DividesByZero (u (.zero false)) 4 7 ∧
      ∃ v, compile joined = .ok v ∧
        (Machine.load v 2).run.machine.stack.values.map Value.kind = [.text] := by
  intro joined program u
  have hprogram : ∀ divisor, compile (program divisor) = .ok (u divisor) := by
    intro divisor
    rw [compile_eq_emitAll]
    rfl
  have hverdicts : ∀ divisor, (Node.block (program divisor)).splice.flatMap Node.verdicts
      = List.replicate 7 none ++ [some ⟨.add, .number, .text⟩, none, none,
        some ⟨.subtract, .text, .text⟩] :=
    fun divisor => rfl
  have hfails : ∀ divisor, ∃ offset, (decode (u divisor).code).instrs[7]?
      = some ⟨offset, .apply .add⟩ ∧
      ((Machine.load (u divisor) 4).run.result = .error (.typeMismatch .add .number .text) ∧
        (Machine.load (u divisor) 4).run.faultSite? = some (offset, some (.arith .add)) ∨
      DividesByZero (u divisor) 4 7) := by
    intro divisor
    obtain ⟨profile, hcheck, hruns⟩ := run_compile_kinds (hprogram divisor) rfl
    rw [CodeUnit.check_eq_follow] at hcheck
    obtain rfl : ⟨4, 3⟩ = profile := Except.ok.inj hcheck
    have hfirst := (hruns 4 (Nat.le_refl 4)).2 7 ⟨.add, .number, .text⟩
    rw [hverdicts] at hfirst
    exact hfirst rfl (by decide)
  have hmismatch : (Machine.load (u .nan) 4).run.result
      = .error (.typeMismatch .add .number .text) := by decide +kernel
  have hzero : (Machine.load (u (.zero false)) 4).run.result = .error .divideByZero := by
    decide +kernel
  have hjoined : compile joined
      = .ok ⟨encodeAll [.load 0, .load 1, .apply .add], #[.text "a", .text "b"]⟩ := by
    rw [compile_eq_emitAll]
    rfl
  refine ⟨hprogram, hverdicts, hmismatch, ?_, ?_, _, hjoined, ?_⟩
  · obtain ⟨offset, hinstr, ⟨-, hsite⟩ | hdivides⟩ := hfails .nan
    · exact ⟨offset, hinstr, hsite⟩
    · cases hmismatch.symm.trans hdivides.result_eq
  · obtain ⟨offset, hinstr, ⟨hresult, -⟩ | hdivides⟩ := hfails (.zero false)
    · cases hzero.symm.trans hresult
    · exact hdivides
  · obtain ⟨profile, hcheck, hruns⟩ := run_compile_kinds hjoined rfl
    rw [CodeUnit.check_eq_follow] at hcheck
    obtain rfl : ⟨2, 1⟩ = profile := Except.ok.inj hcheck
    obtain ⟨kinds, hkinds, ⟨-, -, hvalues⟩ | hdivides⟩ := (hruns 2 (Nat.le_refl 2)).1 (by decide)
    · cases hkinds
      exact hvalues
    · have hresult : (Machine.load ⟨encodeAll [.load 0, .load 1, .apply .add],
            #[.text "a", .text "b"]⟩ 2).run.result
          = .ok (some (.text "ab")) := by decide +kernel
      cases hresult.symm.trans hdivides

end StackMachine
