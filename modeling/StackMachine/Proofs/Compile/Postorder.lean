import StackMachine.Compile.Basic

/-! # Code generation along the post-order

Code generation looks at a program only through the **post-order** of its literals and operators:
blocks leave no trace in it, and the operator of a binary node comes after both operands. The list
of pending tasks is one way to walk it.

* **`Node.postorder`** — the literals, operators and other nodes of a tree, in the order in which
  they get their code.
* **`generate_eq_emitAll`** — the work through pending tasks is a walk along their post-order.
* **`assemble`** and **`literals`** — the instructions and the constants of a post-order.
* **`Assembled items u`** — `u` is the unit of `items`, all of which have code;
  `assembled_of_compile` says that this is what a successful compilation gives. -/

namespace StackMachine

/-! ## The post-order of a program -/

/-- An **item of a post-order**. -/
inductive PostItem where
  /-- A number or a text. -/
  | literal (v : Value)
  /-- The operator of a binary node, behind both operands. -/
  | operator (op : Operator)
  /-- A node of any other kind, with nothing of what is inside it. -/
  | other (kind : NodeKind)
deriving DecidableEq

mutual

/-- The **post-order** of a tree, through blocks and binary nodes only. -/
def Node.postorder : Node → List PostItem
  | .number x => [.literal (.number x)]
  | .text s => [.literal (.text s)]
  | .binary left op right => left.postorder ++ (right.postorder ++ [.operator op])
  | .block nodes => Node.postorderAll nodes
  | node => [.other node.kind]

/-- The post-order of trees one after the other. -/
def Node.postorderAll : List Node → List PostItem
  | [] => []
  | node :: rest => node.postorder ++ Node.postorderAll rest

end

/-- Post-orders of lists of trees concatenate. -/
theorem Node.postorderAll_append (first second : List Node) :
    Node.postorderAll (first ++ second) = Node.postorderAll first ++ Node.postorderAll second := by
  induction first with
  | nil => rfl
  | cons node rest ih =>
    rw [List.cons_append, Node.postorderAll, Node.postorderAll, ih, List.append_assoc]

/-- Whether code generation has a rule for the root of a tree. -/
def Node.hasRule : Node → Bool
  | .number _ => true
  | .text _ => true
  | .binary _ _ _ => true
  | .block _ => true
  | _ => false

/-- **Induction along the rules of code generation**: literals, binary nodes from their operands,
blocks from their statements, and all nodes without a rule at once. -/
@[elab_as_elim]
theorem Node.ruleInduction {motive : Node → Prop} (number : ∀ x, motive (.number x))
    (text : ∀ s, motive (.text s))
    (binary : ∀ left op right, motive left → motive right → motive (.binary left op right))
    (block : ∀ nodes, (∀ node ∈ nodes, motive node) → motive (.block nodes))
    (other : ∀ node, Node.hasRule node = false → motive node) : ∀ node, motive node
  | .number x => number x
  | .text s => text s
  | .binary left op right =>
    binary left op right (ruleInduction number text binary block other left)
      (ruleInduction number text binary block other right)
  | .block nodes => block nodes fun node _ => ruleInduction number text binary block other node
  | .keyword _ => other _ rfl
  | .ident _ => other _ rfl
  | .unary _ _ => other _ rfl
  | .returns _ => other _ rfl
  | .suffixed _ _ => other _ rfl
  | .group _ => other _ rfl
  | .function _ _ => other _ rfl
  | .array _ => other _ rfl
  | .set _ => other _ rfl
  | .map _ => other _ rfl
  | .conditional _ => other _ rfl
  | .switch _ _ => other _ rfl

/-- A node without a rule is a single item of its own kind. -/
theorem Node.postorder_of_hasRule_eq_false {node : Node} (h : node.hasRule = false) :
    node.postorder = [.other node.kind] := by
  cases node <;> first | rfl | cases h

/-! ## Recursion along the post-order -/

/-- **A recursion along the rules of code generation**: `walk` treats literals, operators and nodes
without a rule as `step` treats their items, a binary node as its operands and then its operator,
and a block as `walkAll` treats its statements, one after the other. -/
structure FollowsRules {ε σ : Type} (step : σ → PostItem → Except ε σ)
    (walk : Node → σ → Except ε σ) (walkAll : List Node → σ → Except ε σ) : Prop where
  number : ∀ x s, walk (.number x) s = step s (.literal (.number x))
  text : ∀ t s, walk (.text t) s = step s (.literal (.text t))
  binary : ∀ left op right s, walk (.binary left op right) s
    = walk left s >>= fun afterLeft => walk right afterLeft >>= fun afterRight =>
      step afterRight (.operator op)
  block : ∀ nodes s, walk (.block nodes) s = walkAll nodes s
  nil : ∀ s, walkAll [] s = .ok s
  cons : ∀ node rest s, walkAll (node :: rest) s = walk node s >>= walkAll rest
  other : ∀ node, node.hasRule = false → ∀ s, walk node s = step s (.other node.kind)

/-- **A recursion along the rules goes along the post-order.** -/
theorem FollowsRules.foldlM_postorder {ε σ : Type} {step : σ → PostItem → Except ε σ}
    {walk : Node → σ → Except ε σ} {walkAll : List Node → σ → Except ε σ}
    (h : FollowsRules step walk walkAll) (node : Node) (s : σ) :
    node.postorder.foldlM step s = walk node s := by
  induction node using Node.ruleInduction generalizing s with
  | number x => simp [Node.postorder, h.number]
  | text t => simp [Node.postorder, h.text]
  | other node hrule => simp [Node.postorder_of_hasRule_eq_false hrule, h.other node hrule]
  | binary left op right ihLeft ihRight =>
    rw [Node.postorder, List.foldlM_append, ihLeft, h.binary]
    congr 1
    funext afterLeft
    rw [List.foldlM_append, ihRight]
    congr 1
    funext afterRight
    simp
  | block nodes ih =>
    -- the statements are folded one after the other, each on what the one before leaves
    rw [Node.postorder, h.block]
    induction nodes generalizing s with
    | nil => exact (h.nil s).symm
    | cons node rest ihRest =>
      rw [Node.postorderAll, List.foldlM_append, ih node List.mem_cons_self, h.cons]
      congr 1
      funext after
      exact ihRest (fun node hmem => ih node (List.mem_cons_of_mem _ hmem)) after

/-! ## Tasks are walked along their post-order -/

/-- The post-order of a pending task. -/
def Task.postorder : Task → List PostItem
  | .visit node => node.postorder
  | .apply op => [.operator op]

/-- Visiting the nodes of a list in order is walking the post-order of the list. -/
theorem Task.flatMap_postorder_visitAll (nodes : List Node) :
    (Task.visitAll nodes).flatMap Task.postorder = Node.postorderAll nodes := by
  induction nodes with
  | nil => rfl
  | cons node rest ih =>
    rw [Task.visitAll, List.map_cons, List.flatMap_cons, Node.postorderAll, ← ih]
    rfl

/-- A draft is full when its pool is beyond the greatest index. -/
theorem Draft.isFull_iff (d : Draft) : d.isFull = true ↔ maxIndex < d.pool.size :=
  decide_eq_true_iff

/-- A draft with an operation at the end. -/
def Draft.apply (d : Draft) (op : Arith) : Draft := { d with instrs := d.instrs.push (.apply op) }

/-- A draft with another constant and its load. -/
def Draft.load (d : Draft) (v : Value) : Draft :=
  ⟨d.instrs.push (.load (UInt16.ofNat d.pool.size)), d.pool.push v⟩

/-- **A constant that the pool has room for is appended with its load**: an index up to the greatest
one fits in two bytes, so the instruction never comes out malformed. -/
theorem Draft.emitConstant_of_not_isFull {d : Draft} (hroom : ¬ d.isFull = true) (v : Value) :
    d.emitConstant v = ⟨d.load v, none⟩ := by
  have hindex : d.pool.size < UInt16.size :=
    Nat.lt_succ_of_le (Nat.not_lt.mp (mt d.isFull_iff.mpr hroom))
  simp only [emitConstant, if_neg hroom, emit, Instr.ofOperands, if_pos hindex, load]

/-- An operator that has an operation appends it; an instruction without operands never comes out
malformed. -/
theorem Draft.emitOperator_of_arith? {op : Operator} {operation : Arith}
    (hop : op.arith? = some operation) (d : Draft) :
    d.emitOperator op = ⟨d.apply operation, none⟩ := by
  simp only [emitOperator, hop, emit, Instr.ofOperands, apply]

/-- Generates the code of the items of a post-order, in order, up to the first one that has none. -/
def Draft.emitAll (d : Draft) : List PostItem → Generation
  | [] => ⟨d, none⟩
  | .literal v :: rest =>
    if d.isFull then ⟨d, some (.poolOverflow d.pool.size maxIndex)⟩ else (d.load v).emitAll rest
  | .operator op :: rest =>
    match op.arith? with
    | some operation => (d.apply operation).emitAll rest
    | none => ⟨d, some (.unsupportedOperator op)⟩
  | .other kind :: _ => ⟨d, some (.unsupportedNode kind)⟩

/-- Goes on behind a generation, unless it failed. -/
def Generation.andThen (g : Generation) (next : Draft → Generation) : Generation :=
  match g with
  | ⟨d, none⟩ => next d
  | failed => failed

/-- Nothing follows a failed generation. -/
theorem Generation.andThen_of_failed {g : Generation} (h : ∀ d, g = ⟨d, none⟩ → False)
    (next : Draft → Generation) : g.andThen next = g := by
  rcases g with ⟨d, _ | e⟩
  · exact (h d rfl).elim
  · rfl

/-- A literal at the front is emitted before the items behind it. -/
theorem Draft.emitAll_literal (d : Draft) (v : Value) (rest : List PostItem) :
    d.emitAll (.literal v :: rest) = (d.emitConstant v).andThen fun d' => d'.emitAll rest := by
  rw [emitAll]
  by_cases hfull : d.isFull = true
  · rw [if_pos hfull, emitConstant, if_pos hfull]
    rfl
  · rw [if_neg hfull, emitConstant_of_not_isFull hfull]
    rfl

/-- An operator at the front is emitted before the items behind it. -/
theorem Draft.emitAll_operator (d : Draft) (op : Operator) (rest : List PostItem) :
    d.emitAll (.operator op :: rest) = (d.emitOperator op).andThen fun d' => d'.emitAll rest := by
  rw [emitAll]
  cases hop : op.arith? with
  | some operation =>
    rw [emitOperator_of_arith? hop]
    rfl
  | none =>
    rw [emitOperator, hop]
    rfl

/-- **The work through pending tasks is a walk along their post-order.** -/
theorem generate_eq_emitAll (d : Draft) (tasks : List Task) :
    generate d tasks = d.emitAll (tasks.flatMap Task.postorder) := by
  -- one case for each kind of task:
  -- a task is replaced by others with the same post-order, or emits its own item
  fun_induction generate d tasks with
  | case1 d => rfl
  | case2 d op rest d' hemit ih =>
    rw [ih, List.flatMap_cons, Task.postorder, List.singleton_append, Draft.emitAll_operator, hemit]
    rfl
  | case3 d op rest hfailed =>
    rw [List.flatMap_cons, Task.postorder, List.singleton_append, Draft.emitAll_operator,
      Generation.andThen_of_failed hfailed]
  | case4 d rest nodes ih =>
    rw [ih, List.flatMap_append, Task.flatMap_postorder_visitAll, List.flatMap_cons, Task.postorder,
      Node.postorder]
  | case5 d rest left op right ih =>
    rw [ih]
    simp only [List.flatMap_cons, Task.postorder, Node.postorder, List.append_assoc]
  | case6 d rest x d' hemit ih =>
    rw [ih, List.flatMap_cons, Task.postorder, Node.postorder, List.singleton_append,
      Draft.emitAll_literal, hemit]
    rfl
  | case7 d rest x hfailed =>
    rw [List.flatMap_cons, Task.postorder, Node.postorder, List.singleton_append,
      Draft.emitAll_literal, Generation.andThen_of_failed hfailed]
  | case8 d rest s d' hemit ih =>
    rw [ih, List.flatMap_cons, Task.postorder, Node.postorder, List.singleton_append,
      Draft.emitAll_literal, hemit]
    rfl
  | case9 d rest s hfailed =>
    rw [List.flatMap_cons, Task.postorder, Node.postorder, List.singleton_append,
      Draft.emitAll_literal, Generation.andThen_of_failed hfailed]
  | case10 d rest node hblock hbinary hnumber htext =>
    have hrule : node.hasRule = false := by
      cases node with
      | block nodes => exact (hblock nodes rfl).elim
      | binary left op right => exact (hbinary left op right rfl).elim
      | number x => exact (hnumber x rfl).elim
      | text s => exact (htext s rfl).elim
      | _ => rfl
    rw [List.flatMap_cons, Task.postorder, Node.postorder_of_hasRule_eq_false hrule,
      List.singleton_append, Draft.emitAll]

/-- A compilation walks along the post-order of its program. -/
theorem compile_eq_emitAll (program : List Node) :
    compile program = (Draft.empty.emitAll (Node.postorderAll program)).result := by
  rw [compile, generateAll, generate_eq_emitAll, Task.flatMap_postorder_visitAll]

/-! ## What a successful walk assembles -/

/-- Whether an item of a post-order has code. -/
def PostItem.hasCode : PostItem → Bool
  | .literal _ => true
  | .operator op => op.arith?.isSome
  | .other _ => false

/-- The **constants** of a post-order: its literals, in order. -/
def literals : List PostItem → List Value
  | [] => []
  | .literal v :: rest => v :: literals rest
  | _ :: rest => literals rest

/-- The **instructions** of a post-order whose first literal gets the index `start`. -/
def assemble (start : Nat) : List PostItem → List Instr
  | [] => []
  | .literal _ :: rest => .load (UInt16.ofNat start) :: assemble (start + 1) rest
  | .operator op :: rest =>
    match op.arith? with
    | some operation => .apply operation :: assemble start rest
    | none => assemble start rest
  | .other _ :: rest => assemble start rest

/-- A load holds every index up to the greatest one as it is. -/
theorem toNat_ofNat_of_le_maxIndex {index : Nat} (h : index ≤ maxIndex) :
    (UInt16.ofNat index).toNat = index :=
  UInt16.toNat_ofNat_of_lt' (Nat.lt_succ_of_le h)

/-- The constants of a concatenation. -/
theorem literals_append (first second : List PostItem) :
    literals (first ++ second) = literals first ++ literals second := by
  induction first with
  | nil => rfl
  | cons item rest ih =>
    cases item with
    | literal v => rw [List.cons_append, literals, literals, ih, List.cons_append]
    | operator op => exact ih
    | other kind => exact ih

/-- **The instructions of a concatenation**: the literals of the second part are numbered behind
those of the first. -/
theorem assemble_append (start : Nat) (first second : List PostItem) :
    assemble start (first ++ second)
      = assemble start first ++ assemble (start + (literals first).length) second := by
  induction first generalizing start with
  | nil => rfl
  | cons item rest ih =>
    cases item with
    | literal v =>
      rw [List.cons_append, assemble, assemble, ih, literals, List.length_cons, List.cons_append,
        Nat.add_assoc, Nat.add_comm 1]
    | operator op =>
      rw [List.cons_append, assemble, assemble, literals]
      cases op.arith? with
      | none => exact ih start
      | some operation => rw [ih, List.cons_append]
      exact fun v h => nomatch h
    | other kind => exact ih start

/-- **What a walk without error leaves**: the instructions and constants of the items behind those
of the draft, every item with code, and a pool within its limit. -/
theorem Draft.emitAll_of_error?_eq_none {d : Draft} {items : List PostItem}
    (h : (d.emitAll items).error? = none) (hpool : d.pool.size ≤ maxIndex + 1) :
    (d.emitAll items).draft
        = ⟨d.instrs ++ (assemble d.pool.size items).toArray, d.pool ++ (literals items).toArray⟩ ∧
      (∀ item ∈ items, item.hasCode = true) ∧
        d.pool.size + (literals items).length ≤ maxIndex + 1 := by
  induction items generalizing d with
  | nil => exact ⟨by simp [emitAll, assemble, literals], by simp, hpool⟩
  | cons item rest ih =>
    cases item with
    | other kind => cases h
    | literal v =>
      rw [emitAll] at h ⊢
      by_cases hfull : d.isFull = true
      · simp [hfull] at h
      · rw [if_neg hfull] at h ⊢
        -- the literal takes the next index, and the rest is numbered behind it
        have hsize : (d.load v).pool.size = d.pool.size + 1 := by simp [load]
        have hlt : d.pool.size ≤ maxIndex := Nat.not_lt.mp (mt d.isFull_iff.mpr hfull)
        obtain ⟨hdraft, hcode, hfits⟩ := ih h (by omega)
        refine ⟨?_, ?_, ?_⟩
        · rw [hdraft, hsize]
          simp [load, assemble, literals]
        · simpa [PostItem.hasCode] using hcode
        · rw [literals, List.length_cons]
          omega
    | operator op =>
      rw [emitAll] at h ⊢
      cases hop : op.arith? with
      | none => simp [hop] at h
      | some operation =>
        simp only [hop] at h ⊢
        obtain ⟨hdraft, hcode, hfits⟩ := ih h hpool
        refine ⟨?_, ?_, hfits⟩
        · rw [hdraft]
          simp [apply, assemble, hop, literals]
        · simpa [PostItem.hasCode, hop] using hcode

/-- **The unit of a post-order**, all of whose items have code. -/
structure Assembled (items : List PostItem) (u : CodeUnit) : Prop where
  /-- Every item has code. -/
  hasCode : ∀ item ∈ items, item.hasCode = true
  /-- Every literal has an index that a load can hold. -/
  length_literals_le : (literals items).length ≤ maxIndex + 1
  /-- The code is that of the instructions. -/
  code_eq : u.code = encodeAll (assemble 0 items)
  /-- The pool consists of the literals. -/
  pool_eq : u.pool = (literals items).toArray

/-- **A successful compilation assembles the post-order of its program.** -/
theorem assembled_of_compile {program : List Node} {u : CodeUnit} (h : compile program = .ok u) :
    Assembled (Node.postorderAll program) u := by
  rw [compile_eq_emitAll, Generation.result] at h
  cases herror : (Draft.empty.emitAll (Node.postorderAll program)).error? with
  | some e => simp [herror] at h
  | none =>
    obtain ⟨hdraft, hcode, hfits⟩ := Draft.emitAll_of_error?_eq_none herror (Nat.zero_le _)
    simp only [herror, hdraft, Except.ok.injEq] at h
    subst h
    refine ⟨hcode, by simpa [Draft.empty] using hfits, ?_, ?_⟩ <;> simp [Draft.toUnit, Draft.empty]

end StackMachine
