import StackMachine.Proofs.Compile.FirstDefect
import StackMachine.Proofs.StackCheck.Verdicts

/-! # What the operators of compiled code find

Compiled code has no defect but one: an operator may find fewer than two values. Blocks stand
anywhere in a program, also as operands, and leave as many values as there are statements in them,
so an operand may leave no value at all. Whether an operator is supplied can be counted along the
post-order: each literal before it adds a value, and each operator before it takes one away.

* **`Supplied height items`** — every operator of a post-order finds two values, from a stack of
  `height` values on.
* **`follow_assemble`** — the check goes through the code of supplied items, and stops with an
  underflow at any others.
* **`SelfSupplied`** — items that supply their own operators, above any stack; such are the items of
  a tree in which every operand holds a literal (`Node.selfSupplied_postorder`).
* **`check_compile`** — which compiled programs pass the check. -/

namespace StackMachine

/-! ## Supplied operators -/

/-- **Supplied items**: on a stack of `height` values every operator among them finds two values.
The literals before an operator have added one value each, and the operators before it have taken
one away each. -/
def Supplied (height : Nat) (items : List PostItem) : Prop :=
  ∀ before op after, items = before ++ .operator op :: after →
    (operators before).length + 2 ≤ height + (literals before).length

/-- No items are supplied. -/
theorem supplied_nil (height : Nat) : Supplied height [] := by
  intro before op after hsplit
  simp at hsplit

/-- Behind a literal there is a value more. -/
theorem supplied_literal_iff {height : Nat} {v : Value} {rest : List PostItem} :
    Supplied height (.literal v :: rest) ↔ Supplied (height + 1) rest := by
  constructor
  · intro h before op after hsplit
    have hcount := h (.literal v :: before) op after (by rw [hsplit, List.cons_append])
    simp only [operators, literals, List.length_cons] at hcount
    omega
  · intro h before op after hsplit
    cases before with
    | nil => simp at hsplit
    | cons item before =>
      obtain ⟨rfl, hrest⟩ := List.cons.inj hsplit
      have hcount := h before op after hrest
      simp only [operators, literals, List.length_cons]
      omega

/-- An operator needs two values and leaves one of them. -/
theorem supplied_operator_iff {height : Nat} {op : Operator} {rest : List PostItem} :
    Supplied height (.operator op :: rest) ↔ 2 ≤ height ∧ Supplied (height - 1) rest := by
  constructor
  · intro h
    have hfirst := h [] op rest rfl
    simp only [operators, literals, List.length_nil] at hfirst
    refine ⟨by omega, ?_⟩
    intro before op' after hsplit
    have hcount := h (.operator op :: before) op' after (by rw [hsplit, List.cons_append])
    simp only [operators, literals, List.length_cons] at hcount
    omega
  · rintro ⟨htwo, h⟩ before op' after hsplit
    cases before with
    | nil =>
      simp only [operators, literals, List.length_nil]
      omega
    | cons item before =>
      obtain ⟨rfl, hrest⟩ := List.cons.inj hsplit
      have hcount := h before op' after hrest
      simp only [operators, literals, List.length_cons]
      omega

/-- The operators of a concatenation. -/
theorem operators_append (first second : List PostItem) :
    operators (first ++ second) = operators first ++ operators second := by
  induction first with
  | nil => rfl
  | cons item rest ih =>
    cases item with
    | operator op => rw [List.cons_append, operators, operators, ih, List.cons_append]
    | literal v => exact ih
    | other kind => exact ih

/-- Supplied items behind supplied items are supplied, from the height that the first ones leave. -/
theorem Supplied.append {height left : Nat} {first second : List PostItem}
    (hfirst : Supplied height first)
    (hleft : left + (operators first).length = height + (literals first).length)
    (hsecond : Supplied left second) :
    Supplied height (first ++ second) := by
  intro before op after hsplit
  -- the operator stands in the second part, or it is one of the first
  rcases List.append_eq_append_iff.mp hsplit with ⟨between, rfl, hrest⟩ | ⟨between, rfl, hrest⟩
  · have hcount := hsecond between op after hrest
    rw [operators_append, literals_append, List.length_append, List.length_append]
    omega
  · cases between with
    | nil =>
      have hcount := hsecond [] op after hrest.symm
      simp only [operators, literals, List.length_nil, List.append_nil] at hcount hleft
      omega
    | cons item between =>
      obtain ⟨rfl, -⟩ := List.cons.inj hrest
      exact hfirst before op between rfl

/-! ## The check of assembled code -/

/-- **The check of assembled code** goes to the end exactly when the items are supplied; where they
are not, it reports an underflow, and it never reports anything else. -/
theorem follow_assemble {items : List PostItem} (hcode : ∀ item ∈ items, item.hasCode = true)
    {size start : Nat} (hsize : start + (literals items).length ≤ size)
    (hindex : start + (literals items).length ≤ maxIndex + 1) (profile : StackProfile)
    (offset : Nat) :
    (Supplied profile.finalDepth items ∧
      ∃ final, StackProfile.follow size .done profile (locateFrom offset #[] (assemble start items))
        = .ok final) ∨
    (¬ Supplied profile.finalDepth items ∧
      ∃ site op, StackProfile.follow size .done profile
          (locateFrom offset #[] (assemble start items))
        = .error (.underflow site (.arith op) 2)) := by
  induction items generalizing start profile offset with
  | nil => exact Or.inl ⟨supplied_nil _, profile, rfl⟩
  | cons item rest ih =>
    obtain ⟨hitem, hrest⟩ := List.forall_mem_cons.mp hcode
    cases item with
    | other kind => cases hitem
    | literal v =>
      rw [literals, List.length_cons] at hsize hindex
      have hlt : (UInt16.ofNat start).toNat < size := by
        rw [toNat_ofNat_of_le_maxIndex (by omega)]
        omega
      rw [assemble, locateFrom_cons, StackProfile.follow, StackProfile.advance,
        supplied_literal_iff]
      simp only [if_pos hlt]
      have hsize' : start + 1 + (literals rest).length ≤ size := by omega
      have hindex' : start + 1 + (literals rest).length ≤ maxIndex + 1 := by omega
      exact ih hrest hsize' hindex'
        ⟨max profile.maxDepth (profile.finalDepth + 1), profile.finalDepth + 1⟩ _
    | operator op =>
      obtain ⟨operation, hop⟩ := Option.isSome_iff_exists.mp hitem
      rw [assemble, hop, supplied_operator_iff]
      simp only [locateFrom_cons, StackProfile.follow, StackProfile.advance]
      by_cases htwo : 2 ≤ profile.finalDepth
      · rw [if_pos htwo, and_iff_right htwo]
        exact ih hrest hsize hindex
          ⟨max profile.maxDepth (profile.finalDepth - 1), profile.finalDepth - 1⟩ _
      · rw [if_neg htwo]
        exact Or.inr ⟨fun hsupplied => htwo hsupplied.1, _, operation, rfl⟩

/-- The pool of an assembled unit has a constant for each literal. -/
theorem Assembled.size_pool {items : List PostItem} {u : CodeUnit} (h : Assembled items u) :
    u.pool.size = (literals items).length := by
  rw [h.pool_eq, List.size_toArray]

/-- **The check of an assembled unit** passes exactly when its operators are supplied, and fails
with nothing but an underflow. -/
theorem Assembled.check_cases {items : List PostItem} {u : CodeUnit} (h : Assembled items u) :
    (Supplied 0 items ∧ ∃ profile, u.check = .ok profile) ∨
      (¬ Supplied 0 items ∧ ∃ offset op, u.check = .error (.underflow offset (.arith op) 2)) := by
  have hsize : 0 + (literals items).length ≤ u.pool.size := by
    rw [h.size_pool]
    omega
  have hindex : 0 + (literals items).length ≤ maxIndex + 1 := by
    rw [Nat.zero_add]
    exact h.length_literals_le
  rw [CodeUnit.check_of_encodeAll h.code_eq]
  exact follow_assemble h.hasCode hsize hindex ⟨0, 0⟩ 0

/-! ## Trees that supply their operators -/

/-- **Items that supply themselves**: above any stack their operators find two values, and they
leave no fewer values than they find, and more if there is a literal among them. -/
structure SelfSupplied (items : List PostItem) : Prop where
  /-- The operators find two values, whatever the height. -/
  supplied : ∀ height, Supplied height items
  /-- The items take away no more than they add. -/
  length_le : (operators items).length ≤ (literals items).length
  /-- With a literal among them they leave a value of their own. -/
  length_lt : literals items ≠ [] → (operators items).length < (literals items).length

/-- An item other than an operator supplies itself. -/
theorem selfSupplied_singleton {item : PostItem} (h : ∀ op, item ≠ .operator op) :
    SelfSupplied [item] := by
  cases item with
  | operator op => exact absurd rfl (h op)
  | literal v =>
    exact ⟨fun height => supplied_literal_iff.mpr (supplied_nil _), Nat.zero_le _,
      fun _ => Nat.one_pos⟩
  | other kind =>
    refine ⟨?_, Nat.le_refl _, fun hne => absurd rfl hne⟩
    intro height before op after hsplit
    cases before with
    | nil => simp at hsplit
    | cons item before => simp at hsplit

/-- Items that supply themselves do so one after the other. -/
theorem SelfSupplied.append {first second : List PostItem} (hfirst : SelfSupplied first)
    (hsecond : SelfSupplied second) : SelfSupplied (first ++ second) := by
  have hle := hfirst.length_le
  have hle' := hsecond.length_le
  refine ⟨?_, ?_, ?_⟩
  · intro height
    have hleft :
        height + (literals first).length - (operators first).length + (operators first).length
          = height + (literals first).length := by omega
    exact (hfirst.supplied height).append hleft (hsecond.supplied _)
  · rw [operators_append, literals_append, List.length_append, List.length_append]
    omega
  · intro hne
    rw [operators_append, literals_append, List.length_append, List.length_append]
    -- a literal of the whole is one of either part
    by_cases hnil : literals first = []
    · rw [literals_append, hnil, List.nil_append] at hne
      have hlt := hsecond.length_lt hne
      omega
    · have hlt := hfirst.length_lt hnil
      omega

/-- **An operator over operands that leave a value each is supplied**, and leaves a value again. -/
theorem SelfSupplied.binary {left right : List PostItem} (hleft : SelfSupplied left)
    (hright : SelfSupplied right) (hliteral : literals left ≠ []) (hliteral' : literals right ≠ [])
    (op : Operator) :
    SelfSupplied (left ++ (right ++ [.operator op])) := by
  have hlt := hleft.length_lt hliteral
  have hlt' := hright.length_lt hliteral'
  have hboth := hleft.append hright
  have hcount : (operators (left ++ right)).length + 2 ≤ (literals (left ++ right)).length := by
    rw [operators_append, literals_append, List.length_append, List.length_append]
    omega
  rw [← List.append_assoc]
  refine ⟨?_, ?_, ?_⟩
  · intro height
    have hheight : height + (literals (left ++ right)).length - (operators (left ++ right)).length
        + (operators (left ++ right)).length = height + (literals (left ++ right)).length := by
          omega
    exact (hboth.supplied height).append hheight
      (supplied_operator_iff.mpr ⟨by omega, supplied_nil _⟩)
  · rw [operators_append, literals_append _ [.operator op], List.length_append, List.length_append]
    simp only [operators, literals, List.length_cons, List.length_nil]
    omega
  · intro _
    rw [operators_append, literals_append _ [.operator op], List.length_append, List.length_append]
    simp only [operators, literals, List.length_cons, List.length_nil]
    omega

mutual

/-- Whether **every operand holds a literal**: no operand of a binary node is an empty block, or a
block of nothing but such blocks. -/
def Node.operandsHoldLiterals : Node → Bool
  | .block nodes => Node.operandsHoldLiteralsAll nodes
  | .binary left _ right =>
    left.operandsHoldLiterals && right.operandsHoldLiterals && !(literals left.postorder).isEmpty
      && !(literals right.postorder).isEmpty
  | _ => true

/-- Whether every operand in any of the trees holds a literal. -/
def Node.operandsHoldLiteralsAll : List Node → Bool
  | [] => true
  | node :: rest => node.operandsHoldLiterals && Node.operandsHoldLiteralsAll rest

end

/-- **A tree whose operands all hold a literal supplies its operators.** -/
theorem Node.selfSupplied_postorder {node : Node} (h : node.operandsHoldLiterals = true) :
    SelfSupplied node.postorder := by
  induction node using Node.ruleInduction with
  | number x => exact selfSupplied_singleton nofun
  | text s => exact selfSupplied_singleton nofun
  | other node hrule =>
    rw [Node.postorder_of_hasRule_eq_false hrule]
    exact selfSupplied_singleton nofun
  | binary left op right ihLeft ihRight =>
    rw [Node.operandsHoldLiterals] at h
    simp only [Bool.and_eq_true, Bool.not_eq_true', List.isEmpty_eq_false_iff] at h
    obtain ⟨⟨⟨hleft, hright⟩, hliteral⟩, hliteral'⟩ := h
    exact (ihLeft hleft).binary (ihRight hright) hliteral hliteral' op
  | block nodes ih =>
    rw [Node.operandsHoldLiterals] at h
    rw [Node.postorder]
    induction nodes with
    | nil => exact ⟨supplied_nil, Nat.le_refl _, fun hne => absurd rfl hne⟩
    | cons node rest ihRest =>
      rw [Node.operandsHoldLiteralsAll, Bool.and_eq_true] at h
      have hnode := ih node List.mem_cons_self h.1
      exact hnode.append (ihRest (fun node hmem => ih node (List.mem_cons_of_mem _ hmem)) h.2)

/-! ## Compiled programs -/

/-- **Which compiled programs pass the check.** A compiled program passes exactly when its operators
are supplied, as they are whenever every operand holds a literal, however blocks and binary nodes
are nested. A program that passes never underflows, on any number of slots. Any other is reported as
an underflow, and no run of it halts. -/
theorem check_compile {program : List Node} {u : CodeUnit} (h : compile program = .ok u) :
    ((∃ profile, u.check = .ok profile) ↔ Supplied 0 (Node.block program).postorder) ∧
    ((Node.block program).operandsHoldLiterals = true → ∃ profile, u.check = .ok profile) ∧
    ((∃ profile, u.check = .ok profile) →
      ∀ capacity, (Machine.load u capacity).run.result ≠ .error .stackUnderflow) ∧
    ((¬ ∃ profile, u.check = .ok profile) →
      (∃ offset op, u.check = .error (.underflow offset (.arith op) 2)) ∧
        ∀ capacity top?, (Machine.load u capacity).run.result ≠ .ok top?) := by
  have hiff : (∃ profile, u.check = .ok profile) ↔ Supplied 0 (Node.block program).postorder := by
    rcases (assembled_of_compile h).check_cases with
        ⟨hsupplied, hcheck⟩ | ⟨hsupplied, offset, op, hcheck⟩
    · exact iff_of_true hcheck hsupplied
    · refine iff_of_false ?_ hsupplied
      rintro ⟨profile, hok⟩
      rw [hcheck] at hok
      cases hok
  refine ⟨hiff, ?_, ?_, ?_⟩
  · intro hoperands
    exact hiff.mpr ((Node.selfSupplied_postorder hoperands).supplied 0)
  · rintro ⟨profile, hcheck⟩ capacity
    have hdefect : SameDefect 0 (some (.arith .add)) .stackUnderflow _ := .underflow .add
    exact CodeUnit.result_ne_of_check hcheck capacity hdefect
  · intro hfails
    rcases (assembled_of_compile h).check_cases with ⟨-, hcheck⟩ | ⟨-, offset, op, hcheck⟩
    · exact absurd hcheck hfails
    · exact ⟨⟨offset, op, hcheck⟩, CodeUnit.result_ne_ok_of_check hcheck⟩

/-- Blocks as operands may leave several values, or hold empty blocks among others: the check finds
that both operators are supplied. -/
theorem check_compile_block_operands :
    let program : List Node := [.binary (.block [.text "a", .text "b"]) .plus
      (.binary (.block [.block [], .text "c"]) .star (.block [.block [.text "d"]]))]
    ∃ u, compile program = .ok u ∧ (Node.block program).operandsHoldLiterals = true ∧
      ∃ profile, u.check = .ok profile := by
  intro program
  have hcompile : compile program
      = .ok ⟨encodeAll [.load 0, .load 1, .load 2, .load 3, .apply .multiply, .apply .add],
      #[.text "a", .text "b", .text "c", .text "d"]⟩ := by
    rw [compile_eq_emitAll]
    rfl
  exact ⟨_, hcompile, rfl, (check_compile hcompile).2.1 rfl⟩

/-- **Not every compiled program passes the check**: an empty block leaves no value, so an operator
over it finds the value of its other operand alone. The program compiles, the check rejects it and
its run underflows. -/
theorem check_compile_empty_operand :
    let program : List Node := [.binary (.block []) .plus (.text "a")]
    let u : CodeUnit := ⟨encodeAll [.load 0, .apply .add], #[.text "a"]⟩
    compile program = .ok u ∧ u.check = .error (.underflow 3 (.arith .add) 2) ∧
      (Machine.load u 2).run.result = .error .stackUnderflow := by
  intro program u
  have hcompile : compile program = .ok u := by
    rw [compile_eq_emitAll]
    rfl
  exact ⟨hcompile, u.check_eq_follow, congrArg RunOutcome.result (Machine.run_load u 2)⟩

end StackMachine
