import StackMachine.Proofs.Code.Decoding
import StackMachine.Proofs.Compile.Postorder

/-! # Which programs compile, and what stops the others

Whether a program compiles can be read off from its post-order alone. An item of the post-order is a
**defect** when it has no code: a node without a rule, an operator without an operation, or the
literal that finds the pool full. A program without a defect compiles; any other fails with the
error of its first defect, however the defects are nested in the tree.

* **`IsDefect before item e`** — behind the items `before`, `item` stops code generation with the
  error `e`.
* **`acceptable_or_defect`** — a post-order is acceptable, or it has a first defect.
* **`emitAll_of_acceptable`** and **`emitAll_of_isDefect`** — the walk goes through acceptable items
  and stops at a defect.
* **`compile_outcome`** — the units and the errors of compilation, for every program. -/

namespace StackMachine

/-! ## Defects of a post-order -/

/-- The operators of a post-order, in order. -/
def operators : List PostItem → List Operator
  | [] => []
  | .operator op :: rest => op :: operators rest
  | _ :: rest => operators rest

/-- **A defect of a post-order**: `IsDefect before item e` says that `item`, which follows the items
`before`, has no code, and which error this is. The pool has room for 65536 literals, so the next
one is a defect. -/
inductive IsDefect : List PostItem → PostItem → CompileError → Prop where
  /-- A node of a kind without a rule. -/
  | node (before : List PostItem) (kind : NodeKind) :
      IsDefect before (.other kind) (.unsupportedNode kind)
  /-- An operator other than the four arithmetic ones. -/
  | operator (before : List PostItem) {op : Operator} (h : op ∉ [.plus, .dash, .star, .slash]) :
      IsDefect before (.operator op) (.unsupportedOperator op)
  /-- A literal that finds the pool full. -/
  | literal {before : List PostItem} (h : (literals before).length = 65536) (v : Value) :
      IsDefect before (.literal v) (.poolOverflow 65536 65535)

/-- **The first defect of a post-order** is one that no other precedes. -/
def FirstDefect (items : List PostItem) (e : CompileError) : Prop :=
  ∃ before item after, items = before ++ item :: after ∧ IsDefect before item e ∧
    ∀ earlier item' later e', before = earlier ++ item' :: later → ¬ IsDefect earlier item' e'

/-- **Acceptable items**: all of them have code, and the pool has room for the literals. -/
structure Acceptable (items : List PostItem) : Prop where
  /-- Every item has code. -/
  hasCode : ∀ item ∈ items, item.hasCode = true
  /-- Every literal has an index that a load can hold. -/
  length_literals_le : (literals items).length ≤ maxIndex + 1

/-- The empty post-order is acceptable. -/
theorem Acceptable.nil : Acceptable [] := ⟨by simp, Nat.zero_le _⟩

/-- The four arithmetic operators are those with an operation. -/
theorem Operator.isSome_arith?_iff (op : Operator) :
    op.arith?.isSome = true ↔ op ∈ [.plus, .dash, .star, .slash] := by
  cases op <;> decide

/-- An item that has code joins acceptable items, when the pool has room for it. -/
theorem Acceptable.concat {before : List PostItem} {item : PostItem} (h : Acceptable before)
    (hcode : item.hasCode = true) (hfits : (literals (before ++ [item])).length ≤ maxIndex + 1) :
    Acceptable (before ++ [item]) := by
  refine ⟨?_, hfits⟩
  intro item' hmem
  rcases List.mem_append.mp hmem with hbefore | hlast
  · exact h.hasCode item' hbefore
  · rwa [List.mem_singleton.mp hlast]

/-- An item behind acceptable ones joins them or is a defect. -/
theorem Acceptable.concat_or_defect {before : List PostItem} (h : Acceptable before)
    (item : PostItem) :
    Acceptable (before ++ [item]) ∨ ∃ e, IsDefect before item e := by
  have hfits := h.length_literals_le
  cases item with
  | other kind => exact Or.inr ⟨_, .node before kind⟩
  | operator op =>
    by_cases hop : op ∈ [.plus, .dash, .star, .slash]
    · refine Or.inl (h.concat (op.isSome_arith?_iff.mpr hop) ?_)
      simpa [literals_append, literals] using hfits
    · exact Or.inr ⟨_, .operator before hop⟩
  | literal v =>
    by_cases hfull : (literals before).length = 65536
    · exact Or.inr ⟨_, .literal hfull v⟩
    · refine Or.inl (h.concat rfl ?_)
      simp only [literals_append, List.length_append, literals, List.length_singleton,
        maxIndex] at hfits ⊢
      omega

/-- There is no defect among acceptable items. -/
theorem Acceptable.not_isDefect {items earlier later : List PostItem} {item : PostItem}
    (h : Acceptable items) (hsplit : items = earlier ++ item :: later) (e : CompileError) :
    ¬ IsDefect earlier item e := by
  have hcode : item.hasCode = true := h.hasCode item (by simp [hsplit])
  have hfits := h.length_literals_le
  intro hdefect
  cases hdefect with
  | node kind => cases hcode
  | operator hop => exact hop ((Operator.isSome_arith?_iff _).mp hcode)
  | literal hfull v =>
    rw [hsplit, literals_append, List.length_append, literals, List.length_cons, hfull,
      maxIndex] at hfits
    omega

/-- **Items are acceptable, or there is a first defect among them**, whatever acceptable items
precede them. -/
theorem acceptable_or_defect {before : List PostItem} (h : Acceptable before)
    (items : List PostItem) :
    Acceptable (before ++ items) ∨
      ∃ prior item after e, items = prior ++ item :: after ∧ Acceptable (before ++ prior) ∧
        IsDefect (before ++ prior) item e := by
  induction items generalizing before with
  | nil =>
    rw [List.append_nil]
    exact Or.inl h
  | cons item rest ih =>
    rcases h.concat_or_defect item with hitem | ⟨e, hdefect⟩
    · rcases ih hitem with hrest | ⟨prior, item', after, e, rfl, hprior, hdefect⟩
      · rw [List.append_assoc, List.singleton_append] at hrest
        exact Or.inl hrest
      · rw [List.append_assoc, List.singleton_append] at hprior hdefect
        exact Or.inr ⟨item :: prior, item', after, e, rfl, hprior, hdefect⟩
    · exact Or.inr ⟨[], item, rest, e, rfl, by rwa [List.append_nil], by rwa [List.append_nil]⟩

/-- **A post-order is acceptable or has a first defect.** -/
theorem acceptable_or_firstDefect (items : List PostItem) :
    Acceptable items ∨ ∃ e, FirstDefect items e := by
  rcases acceptable_or_defect Acceptable.nil items with haccept | hfound
  · exact Or.inl haccept
  · obtain ⟨before, item, after, e, hsplit, hbefore, hdefect⟩ := hfound
    exact Or.inr ⟨e, before, item, after, hsplit, hdefect,
      fun _ _ _ e' h => hbefore.not_isDefect h e'⟩

/-! ## The walk up to the first defect -/

/-- A walk along a concatenation is a walk along its parts. -/
theorem Draft.emitAll_append (d : Draft) (first second : List PostItem) :
    d.emitAll (first ++ second) = (d.emitAll first).andThen fun d' => d'.emitAll second := by
  induction first generalizing d with
  | nil => rfl
  | cons item rest ih =>
    rw [List.cons_append]
    cases item with
    | other kind => rfl
    | literal v =>
      rw [emitAll, emitAll]
      split
      · rfl
      · exact ih _
    | operator op =>
      rw [emitAll, emitAll]
      split
      · exact ih _
      · rfl

/-- A walk along items with code goes to the end, when the pool has room for their literals. -/
theorem Draft.error?_emitAll {d : Draft} {items : List PostItem}
    (hcode : ∀ item ∈ items, item.hasCode = true)
    (hfits : d.pool.size + (literals items).length ≤ maxIndex + 1) :
    (d.emitAll items).error? = none := by
  induction items generalizing d with
  | nil => rfl
  | cons item rest ih =>
    obtain ⟨hitem, hrest⟩ := List.forall_mem_cons.mp hcode
    cases item with
    | other kind => cases hitem
    | operator op =>
      obtain ⟨operation, hop⟩ := Option.isSome_iff_exists.mp hitem
      rw [emitAll, hop]
      exact ih hrest hfits
    | literal v =>
      rw [literals, List.length_cons] at hfits
      have hroom : ¬ d.isFull = true := by
        rw [isFull_iff]
        omega
      have hsize : (d.load v).pool.size = d.pool.size + 1 := by simp [load]
      rw [emitAll, if_neg hroom]
      exact ih hrest (by omega)

/-- **The walk along acceptable items** leaves their instructions and their literals. -/
theorem emitAll_of_acceptable {items : List PostItem} (h : Acceptable items) :
    Draft.empty.emitAll items = ⟨⟨(assemble 0 items).toArray, (literals items).toArray⟩, none⟩ := by
  have herror : (Draft.empty.emitAll items).error? = none :=
    Draft.error?_emitAll h.hasCode (by simpa [Draft.empty] using h.length_literals_le)
  have hdraft := (Draft.emitAll_of_error?_eq_none herror (Nat.zero_le _)).1
  rcases hwalk : Draft.empty.emitAll items with ⟨d, error?⟩
  rw [hwalk] at herror hdraft
  subst herror hdraft
  simp [Draft.empty]

/-- **The walk stops at the first defect**, and leaves the instructions and literals before it. -/
theorem emitAll_of_isDefect {before : List PostItem} {item : PostItem} {e : CompileError}
    (hbefore : Acceptable before) (h : IsDefect before item e) (after : List PostItem) :
    Draft.empty.emitAll (before ++ item :: after)
      = ⟨⟨(assemble 0 before).toArray, (literals before).toArray⟩, some e⟩ := by
  rw [Draft.emitAll_append, emitAll_of_acceptable hbefore, Generation.andThen]
  cases h with
  | node kind => rfl
  | @operator op hop =>
    have hnone : op.arith? = none := by
      rwa [← Option.not_isSome_iff_eq_none, op.isSome_arith?_iff]
    simp only [Draft.emitAll, hnone]
  | literal hfull v => simp [Draft.emitAll, Draft.isFull, hfull, maxIndex]

/-- The bytes of an assembled post-order: three for each literal and one for each operator. -/
theorem length_encodeAll_assemble (start : Nat) {items : List PostItem}
    (h : ∀ item ∈ items, item.hasCode = true) :
    (encodeAll (assemble start items)).length
      = 3 * (literals items).length + (operators items).length := by
  induction items generalizing start with
  | nil => rfl
  | cons item rest ih =>
    obtain ⟨hitem, hrest⟩ := List.forall_mem_cons.mp h
    cases item with
    | other kind => cases hitem
    | literal v =>
      have hsize : (Instr.load (UInt16.ofNat start)).size = 3 := rfl
      rw [assemble, length_encodeAll_cons, ih _ hrest, hsize]
      simp only [literals, operators, List.length_cons]
      omega
    | operator op =>
      obtain ⟨operation, hop⟩ := Option.isSome_iff_exists.mp hitem
      simp only [assemble, hop, length_encodeAll_cons, ih _ hrest, Instr.size_apply, literals,
        operators, List.length_cons]
      omega

/-! ## The outcome of compilation -/

/-- A program whose post-order is acceptable compiles to its instructions and literals. -/
theorem compile_of_acceptable {program : List Node} (h : Acceptable (Node.postorderAll program)) :
    compile program = .ok ⟨encodeAll (assemble 0 (Node.postorderAll program)),
      (literals (Node.postorderAll program)).toArray⟩ := by
  rw [compile_eq_emitAll, emitAll_of_acceptable h]
  rfl

/-- A program with a first defect fails with its error. -/
theorem compile_of_firstDefect {program : List Node} {e : CompileError}
    (h : FirstDefect (Node.postorderAll program) e) : compile program = .error e := by
  obtain ⟨before, item, after, hsplit, hdefect, hfirst⟩ := h
  have hbefore : Acceptable before := by
    rcases acceptable_or_firstDefect before with
        haccept | ⟨e', earlier, item', later, hearlier, hdefect', -⟩
    · exact haccept
    · exact (hfirst earlier item' later e' hearlier hdefect').elim
  rw [compile_eq_emitAll, hsplit, emitAll_of_isDefect hbefore hdefect]
  rfl

/-- Acceptable items in words: arithmetic operators only, nothing without a rule, and a pool within
its limit. -/
theorem acceptable_iff (items : List PostItem) :
    Acceptable items ↔
      (∀ op, .operator op ∈ items → op ∈ [.plus, .dash, .star, .slash]) ∧
        (∀ kind, .other kind ∉ items) ∧ (literals items).length ≤ 65536 := by
  constructor
  · intro h
    refine ⟨?_, ?_, h.length_literals_le⟩
    · intro op hmem
      exact op.isSome_arith?_iff.mp (h.hasCode _ hmem)
    · intro kind hmem
      have hcode := h.hasCode _ hmem
      cases hcode
  · rintro ⟨hoperators, hothers, hfits⟩
    refine ⟨?_, hfits⟩
    intro item hmem
    cases item with
    | literal v => rfl
    | operator op => exact op.isSome_arith?_iff.mpr (hoperators op hmem)
    | other kind => exact (hothers kind hmem).elim

/-- **The outcome of compilation.** A program compiles exactly when the operators of its post-order
are arithmetic, no node in it lacks a rule and there are at most 65536 literals. Its unit then holds
the literals as constants, in order, and three bytes of code for each literal and one for each
operator. Otherwise compilation fails with the error of the first defect, and with no other one. -/
theorem compile_outcome (program : List Node) :
    ((∃ u, compile program = .ok u) ↔
      (∀ op, .operator op ∈ (Node.block program).postorder → op ∈ [.plus, .dash, .star, .slash]) ∧
        (∀ kind, .other kind ∉ (Node.block program).postorder) ∧
        (literals (Node.block program).postorder).length ≤ 65536) ∧
    (∀ u, compile program = .ok u →
      u.pool.toList = literals (Node.block program).postorder ∧
        u.code.length = 3 * (literals (Node.block program).postorder).length
          + (operators (Node.block program).postorder).length) ∧
    ∀ e, compile program = .error e ↔ FirstDefect (Node.block program).postorder e := by
  rw [Node.postorder, ← acceptable_iff]
  refine ⟨⟨?_, ?_⟩, ?_, ?_⟩
  · rintro ⟨u, hu⟩
    have hassembled := assembled_of_compile hu
    exact ⟨hassembled.hasCode, hassembled.length_literals_le⟩
  · intro haccept
    exact ⟨_, compile_of_acceptable haccept⟩
  · intro u hu
    have hassembled := assembled_of_compile hu
    rw [hassembled.pool_eq, hassembled.code_eq]
    exact ⟨rfl, length_encodeAll_assemble 0 hassembled.hasCode⟩
  · intro e
    refine ⟨?_, compile_of_firstDefect⟩
    intro he
    rcases acceptable_or_firstDefect (Node.postorderAll program) with haccept | ⟨e', hfirst⟩
    · rw [compile_of_acceptable haccept] at he
      cases he
    · rw [compile_of_firstDefect hfirst] at he
      rwa [← Except.error.inj he]

/-- A unary operand stands before the comparison that it is an operand of, so it is the first
defect. -/
theorem compile_outcome_operand_first :
    compile [.binary (.unary .dash (.text "a")) .equal (.text "b")]
      = .error (.unsupportedNode .unary) := by
  refine ((compile_outcome _).2.2 _).mpr ?_
  refine ⟨[], .other .unary, [.literal (.text "b"), .operator .equal], rfl, .node [] .unary, ?_⟩
  intro earlier item' later e' h
  simp at h

end StackMachine
