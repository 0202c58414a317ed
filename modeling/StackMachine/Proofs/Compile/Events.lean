import StackMachine.Proofs.Compile.PoolReferences
import StackMachine.Proofs.Listing.Lines

/-! # The log of code generation

Code generation logs every instruction that it emits, with the offset where it starts, and at the
end the size of the unit. The log can be kept beside the unit while this grows, an entry with each
instruction; and it can be read off from the post-order of the program. Either way the code can be
put together from the log alone, and a generation that fails has logged the instructions of what
comes before the first defect.

* **`Journal`** — a unit together with the log of its generation; **`Node.journal`** keeps it by
  recursion on the tree.
* **`Draft.journal_emitAll`** — the walk along a post-order keeps the same journal.
* **`EmitsOf items emits`** — the emitted instructions are those of the items, one for each, at
  their offsets.
* **`emitsOf_assemble`** — what is assembled from acceptable items is that.
* **`compile_events`** — the log of every compilation. -/

namespace StackMachine

/-! ## Journals -/

/-- A **journal**: the unit generated so far, and the log of its generation. -/
structure Journal where
  /-- The unit. -/
  unit : CodeUnit
  /-- The events so far, in order. -/
  log : List CompileEvent

namespace Journal

/-- The journal before anything is generated. -/
def empty : Journal := ⟨.empty, []⟩

/-- Appends the instruction of an opcode with operands, and logs it with the offset where it starts;
a malformed one is neither appended nor logged. -/
def emit (j : Journal) (op : Opcode) (operands : List Nat) :
    Except (CompileError × Journal) Journal :=
  match Instr.ofOperands op operands with
  | .ok i => .ok ⟨⟨j.unit.code ++ i.encode, j.unit.pool⟩, j.log ++ [.emit ⟨j.unit.code.length, i⟩]⟩
  | .error cause => .error (.encoding cause, j)

/-- Appends a constant, unless its index is beyond the greatest one, and emits its load. -/
def emitConstant (j : Journal) (v : Value) : Except (CompileError × Journal) Journal :=
  if maxIndex < j.unit.pool.size then .error (.poolOverflow j.unit.pool.size maxIndex, j)
  else
    let (index, extended) := j.unit.addConstant v
    Journal.emit ⟨extended, j.log⟩ .constant [index]

/-- Emits the operation of an operator, if it has one. -/
def emitOperator (j : Journal) (op : Operator) : Except (CompileError × Journal) Journal :=
  match op.arith? with
  | some operation => j.emit (.arith operation) []
  | none => .error (.unsupportedOperator op, j)

end Journal

mutual

/-- **The journal of a tree, by recursion**: a block generates its statements in order, a binary
node its left operand, its right operand and then its operator. The first error ends the generation
and keeps the journal up to it. -/
def Node.journal : Node → Journal → Except (CompileError × Journal) Journal
  | .number x, j => j.emitConstant (.number x)
  | .text s, j => j.emitConstant (.text s)
  | .block nodes, j => Node.journalAll nodes j
  | .binary left op right, j => do
    let afterLeft ← left.journal j
    let afterRight ← right.journal afterLeft
    afterRight.emitOperator op
  | node, j => .error (.unsupportedNode node.kind, j)

/-- The journal of trees one after the other, by recursion. -/
def Node.journalAll : List Node → Journal → Except (CompileError × Journal) Journal
  | [], j => .ok j
  | node :: rest, j => do
    let after ← node.journal j
    Node.journalAll rest after

end

/-- Keeps the journal of an item of a post-order. -/
def PostItem.journal (j : Journal) : PostItem → Except (CompileError × Journal) Journal
  | .literal v => j.emitConstant v
  | .operator op => j.emitOperator op
  | .other kind => .error (.unsupportedNode kind, j)

/-- A node without a rule ends the generation. -/
theorem Node.journal_of_hasRule_eq_false {node : Node} (h : node.hasRule = false) (j : Journal) :
    node.journal j = .error (.unsupportedNode node.kind, j) := by
  cases node <;> first | rfl | cases h

/-- The recursion that keeps the journal follows the rules of code generation. -/
theorem followsRules_journal : FollowsRules PostItem.journal Node.journal Node.journalAll where
  number _ _ := rfl
  text _ _ := rfl
  binary _ _ _ _ := rfl
  block _ _ := rfl
  nil _ := rfl
  cons _ _ _ := rfl
  other _ hrule j := Node.journal_of_hasRule_eq_false hrule j

/-! ## The journal of a draft -/

/-- The journal of a draft: its unit, and an event for each of its instructions. -/
def Draft.journal (d : Draft) : Journal := ⟨d.toUnit, (locate d.instrs.toList).map .emit⟩

/-- The journal of a generation, with the error that ended it if there is one. -/
def Generation.journal (g : Generation) : Except (CompileError × Journal) Journal :=
  match g.error? with
  | none => .ok g.draft.journal
  | some e => .error (e, g.draft.journal)

/-- **An instruction emitted to a draft is logged at the end of its journal.** -/
theorem Draft.journal_emit (d : Draft) (op : Opcode) (operands : List Nat) :
    (d.emit op operands).journal = d.journal.emit op operands := by
  rw [Draft.emit, Journal.emit]
  cases Instr.ofOperands op operands with
  | error cause => rfl
  | ok i =>
    have hcode : encodeAll (d.instrs.push i).toList = encodeAll d.instrs.toList ++ i.encode := by
      rw [Array.toList_push, encodeAll_append, encodeAll_cons]
      exact congrArg _ (List.append_nil _)
    have hlog : locate (d.instrs.push i).toList
        = locate d.instrs.toList ++ [⟨(encodeAll d.instrs.toList).length, i⟩] := by
      rw [Array.toList_push, locate_append, locateFrom_cons]
      rfl
    simp only [Generation.journal, Draft.journal, toUnit, hcode, hlog, List.map_append]
    rfl

/-- A constant is appended to a draft as it is to its journal. -/
theorem Draft.journal_emitConstant (d : Draft) (v : Value) :
    (d.emitConstant v).journal = d.journal.emitConstant v := by
  rw [Draft.emitConstant, Journal.emitConstant]
  by_cases hfull : d.isFull = true
  · have hlt : maxIndex < d.journal.unit.pool.size := d.isFull_iff.mp hfull
    rw [if_pos hfull, if_pos hlt]
    rfl
  · have hlt : ¬ maxIndex < d.journal.unit.pool.size := mt d.isFull_iff.mpr hfull
    rw [if_neg hfull, if_neg hlt]
    exact Draft.journal_emit { d with pool := d.pool.push v } _ _

/-- An operator is appended to a draft as it is to its journal. -/
theorem Draft.journal_emitOperator (d : Draft) (op : Operator) :
    (d.emitOperator op).journal = d.journal.emitOperator op := by
  rw [Draft.emitOperator, Journal.emitOperator]
  cases op.arith? with
  | none => rfl
  | some operation => exact d.journal_emit _ _

/-- The journal of what goes on behind a generation. -/
theorem Generation.journal_andThen (g : Generation) {next : Draft → Generation}
    (nextJournal : Journal → Except (CompileError × Journal) Journal)
    (h : ∀ d : Draft, (next d).journal = nextJournal d.journal) :
    (g.andThen next).journal = g.journal >>= nextJournal := by
  rcases g with ⟨d, _ | e⟩
  · exact h d
  · rfl

/-- **The walk along a post-order keeps the journal of its items**, one after the other. -/
theorem Draft.journal_emitAll (d : Draft) (items : List PostItem) :
    (d.emitAll items).journal = items.foldlM PostItem.journal d.journal := by
  induction items generalizing d with
  | nil => rfl
  | cons item rest ih =>
    -- the journal of what follows is kept from the journal of the draft that the item leaves
    have hrest :=
      fun g : Generation => g.journal_andThen (fun j => rest.foldlM PostItem.journal j) ih
    rw [List.foldlM_cons]
    cases item with
    | other kind => rfl
    | literal v => rw [Draft.emitAll_literal, hrest, Draft.journal_emitConstant, PostItem.journal]
    | operator op =>
      rw [Draft.emitAll_operator, hrest, Draft.journal_emitOperator, PostItem.journal]

/-- A compilation is a walk along the post-order of its program. -/
theorem generateAll_eq_emitAll (program : List Node) :
    generateAll program = Draft.empty.emitAll (Node.postorderAll program) := by
  rw [generateAll, generate_eq_emitAll, Task.flatMap_postorder_visitAll]

/-- **The journal of a compilation is the one that the recursion keeps.** -/
theorem journal_generateAll (program : List Node) :
    (generateAll program).journal = (Node.block program).journal .empty := by
  rw [generateAll_eq_emitAll, Draft.journal_emitAll]
  exact followsRules_journal.foldlM_postorder (.block program) .empty

/-- A generation that goes to the end has the unit and the log of its journal, and logs the size of
the unit. -/
theorem Generation.events_of_journal_eq_ok {g : Generation} {j : Journal} (h : g.journal = .ok j) :
    g.result = .ok j.unit ∧
      g.events = j.log ++ [.compiled j.unit.code.length j.unit.pool.size] := by
  rcases g with ⟨d, _ | e⟩
  · cases h
    exact ⟨rfl, rfl⟩
  · cases h

/-- A generation that fails has the log of its journal. -/
theorem Generation.events_of_journal_eq_error {g : Generation} {j : Journal} {e : CompileError}
    (h : g.journal = .error (e, j)) : g.result = .error e ∧ g.events = j.log := by
  rcases g with ⟨d, _ | e'⟩
  · cases h
  · cases h
    exact ⟨rfl, rfl⟩

/-! ## The instructions of a post-order -/

/-- The instruction of an item, if it has one: a literal is loaded by its index, which is the number
of literals before it. -/
def PostItem.raw? (index : Nat) : PostItem → Option RawInstr
  | .literal _ => some ⟨.constant, [index]⟩
  | .operator op => op.arith?.map fun operation => ⟨.arith operation, []⟩
  | .other _ => none

/-- **The emitted instructions of a post-order**: one for each item, in order. It starts behind
three bytes for every literal and one for every operator before it. -/
structure EmitsOf (items : List PostItem) (emits : List Located) : Prop where
  /-- There are as many instructions as items. -/
  length_eq : emits.length = items.length
  /-- The instruction of an item stands at its place, at its offset. -/
  emitted : ∀ before item after, items = before ++ item :: after →
    ∃ i, item.raw? (literals before).length = some i.raw ∧
      emits[before.length]? = some ⟨3 * (literals before).length + (operators before).length, i⟩

/-- Items that have code are assembled to one instruction each. -/
theorem length_assemble (start : Nat) {items : List PostItem}
    (h : ∀ item ∈ items, item.hasCode = true) : (assemble start items).length = items.length := by
  induction items generalizing start with
  | nil => rfl
  | cons item rest ih =>
    obtain ⟨hitem, hrest⟩ := List.forall_mem_cons.mp h
    cases item with
    | other kind => cases hitem
    | literal v => rw [assemble, List.length_cons, List.length_cons, ih _ hrest]
    | operator op =>
      obtain ⟨operation, hop⟩ := Option.isSome_iff_exists.mp hitem
      simp only [assemble, hop, List.length_cons, ih _ hrest]

/-- An item that has code is assembled to its instruction, in front of those of the items behind it,
when the pool has room for the literals. -/
theorem exists_assemble_cons {item : PostItem} {start : Nat} {after : List PostItem}
    (hcode : item.hasCode = true)
    (hfits : start + (literals (item :: after)).length ≤ maxIndex + 1) :
    ∃ i next, item.raw? start = some (Instr.raw i) ∧
      assemble start (item :: after) = i :: assemble next after := by
  cases item with
  | other kind => cases hcode
  | literal v =>
    rw [literals, List.length_cons] at hfits
    refine ⟨.load (UInt16.ofNat start), start + 1, ?_, rfl⟩
    rw [PostItem.raw?, Instr.raw, Instr.operands, toNat_ofNat_of_le_maxIndex (by omega)]
    rfl
  | operator op =>
    obtain ⟨operation, hop⟩ := Option.isSome_iff_exists.mp hcode
    refine ⟨.apply operation, start, ?_, ?_⟩
    · rw [PostItem.raw?, hop]
      rfl
    · simp only [assemble, hop]

/-- There are as many located instructions as instructions. -/
theorem length_locate (instrs : List Instr) : (locate instrs).length = instrs.length := by
  rw [← List.length_map Located.instr, locate, map_instr_locateFrom]

/-- **What is assembled from acceptable items are their instructions.** -/
theorem emitsOf_assemble {items : List PostItem} (h : Acceptable items) :
    EmitsOf items (locate (assemble 0 items)) := by
  refine ⟨?_, ?_⟩
  · rw [length_locate, length_assemble 0 h.hasCode]
  · rintro before item after rfl
    have hbefore : ∀ other ∈ before, other.hasCode = true :=
      fun other hother => h.hasCode other (List.mem_append_left _ hother)
    have hfits := h.length_literals_le
    rw [literals_append, List.length_append] at hfits
    obtain ⟨i, next, hraw, hassemble⟩ :=
      exists_assemble_cons (h.hasCode item (List.mem_append_right _ List.mem_cons_self)) hfits
    -- the instructions of the items before it are as many as these,
    -- and their bytes end at the offset
    have hlength : (locate (assemble 0 before)).length = before.length := by
      rw [length_locate, length_assemble 0 hbefore]
    refine ⟨i, hraw, ?_⟩
    rw [assemble_append, Nat.zero_add, hassemble, locate_append, locateFrom_cons,
      List.getElem?_append_right (Nat.le_of_eq hlength), hlength, Nat.sub_self,
      length_encodeAll_assemble 0 hbefore]
    rfl

/-- **An instruction starts where the bytes of those before it end.** -/
theorem offset_of_getElem?_locateFrom {offset k : Nat} {instrs : List Instr} {item : Located}
    (h : (locateFrom offset #[] instrs)[k]? = some item) :
    item.offset = offset + ((instrs.map Instr.encode).take k).flatten.length := by
  induction instrs generalizing offset k with
  | nil => simp [locateFrom] at h
  | cons i rest ih =>
    rw [locateFrom_cons] at h
    cases k with
    | zero =>
      cases h
      rfl
    | succ k =>
      rw [List.getElem?_cons_succ] at h
      rw [ih h, List.map_cons, List.take_succ_cons, List.flatten_cons, List.length_append,
        Instr.length_encode, Nat.add_assoc]

/-- As many loads are assembled as there are literals. -/
theorem length_filter_locate_assemble (items : List PostItem) :
    ((locate (assemble 0 items)).filter fun item => item.instr.isLoad).length
      = (literals items).length := by
  have hloads := congrArg List.length (filter_assemble 0 items)
  rw [List.length_map, List.length_range', ← List.countP_eq_length_filter,
    ← map_instr_locateFrom 0 (assemble 0 items), List.countP_map] at hloads
  rw [← List.countP_eq_length_filter]
  exact hloads

/-! ## The log of a compilation -/

/-- The log of a program whose post-order is acceptable. -/
theorem events_of_acceptable {program : List Node} (h : Acceptable (Node.postorderAll program)) :
    (generateAll program).events = (locate (assemble 0 (Node.postorderAll program))).map .emit ++
      [.compiled (encodeAll (assemble 0 (Node.postorderAll program))).length
        (literals (Node.postorderAll program)).length] := by
  rw [generateAll_eq_emitAll, emitAll_of_acceptable h]
  rfl

/-- The generation of a program with a defect behind acceptable items. -/
theorem generateAll_of_isDefect {program : List Node} {before after : List PostItem}
    {item : PostItem} {e : CompileError}
    (hsplit : Node.postorderAll program = before ++ item :: after) (hbefore : Acceptable before)
    (hdefect : IsDefect before item e) :
    generateAll program = ⟨⟨(assemble 0 before).toArray, (literals before).toArray⟩, some e⟩ := by
  rw [generateAll_eq_emitAll, hsplit, emitAll_of_isDefect hbefore hdefect]

/-- **The log of a compilation.** It is the log that the recursion on the tree keeps while it
appends to the unit, and both end with the same unit or the same error. If the program compiles, the
log has one event for each instruction of the code, and then one for the size of the unit. The
instructions are those of the post-order; encoded again from their opcodes and operands and put one
behind the other they are the code, and each starts where those before it end. If the program does
not compile, the log has events for the instructions of the items before the first defect and no
others, among them 65536 loads if the defect is that the pool is full. -/
theorem compile_events (program : List Node) :
    (∀ j, (Node.block program).journal .empty = .ok j →
      compile program = .ok j.unit ∧
        (generateAll program).events = j.log ++ [.compiled j.unit.code.length j.unit.pool.size]) ∧
    (∀ e j, (Node.block program).journal .empty = .error (e, j) →
      compile program = .error e ∧ (generateAll program).events = j.log) ∧
    (∀ u, compile program = .ok u →
      ∃ emits chunks,
        (generateAll program).events = emits.map .emit ++ [.compiled u.code.length u.pool.size] ∧
        decode u.code = ⟨emits, .done⟩ ∧ EmitsOf (Node.block program).postorder emits ∧
        (emits.map fun item => item.instr.raw).mapM RawInstr.encode = .ok chunks ∧
        chunks.flatten = u.code ∧
        ∀ k item, emits[k]? = some item → item.offset = (chunks.take k).flatten.length) ∧
    ∀ e, compile program = .error e →
      ∃ before item after emits,
        (Node.block program).postorder = before ++ item :: after ∧ IsDefect before item e ∧
        (∀ earlier item' later e', before = earlier ++ item' :: later →
          ¬ IsDefect earlier item' e') ∧
        (generateAll program).events = emits.map .emit ∧ EmitsOf before emits ∧
        ∀ index max, e = .poolOverflow index max →
          (emits.filter fun item => item.instr.isLoad).length = 65536 := by
  refine ⟨?_, ?_, ?_, ?_⟩
  · intro j hj
    exact Generation.events_of_journal_eq_ok ((journal_generateAll program).trans hj)
  · intro e j hj
    exact Generation.events_of_journal_eq_error ((journal_generateAll program).trans hj)
  · intro u hu
    have hassembled := assembled_of_compile hu
    have haccept : Acceptable (Node.postorderAll program) :=
      ⟨hassembled.hasCode, hassembled.length_literals_le⟩
    refine ⟨locate (assemble 0 (Node.postorderAll program)),
      (assemble 0 (Node.postorderAll program)).map Instr.encode, ?_, hassembled.decode_eq,
      emitsOf_assemble haccept, ?_, ?_, ?_⟩
    · rw [events_of_acceptable haccept, hassembled.code_eq, hassembled.size_pool]
    · rw [map_locate Instr.raw, RawInstr.mapM_encode_raw]
    · rw [hassembled.code_eq, encodeAll, List.flatMap_def]
    · intro k item hitem
      rw [offset_of_getElem?_locateFrom hitem, Nat.zero_add]
  · intro e he
    rcases acceptable_or_defect Acceptable.nil (Node.postorderAll program) with haccept | hfound
    · rw [compile_of_acceptable haccept] at he
      cases he
    · obtain ⟨before, item, after, e', hsplit, hbefore, hdefect⟩ := hfound
      rw [List.nil_append] at hbefore hdefect
      have hgeneration := generateAll_of_isDefect hsplit hbefore hdefect
      rw [compile, hgeneration] at he
      cases he
      refine ⟨before, item, after, locate (assemble 0 before), hsplit, hdefect, ?_, ?_,
        emitsOf_assemble hbefore, ?_⟩
      · intro earlier item' later e' hearlier
        exact hbefore.not_isDefect hearlier e'
      · rw [hgeneration]
        rfl
      · rintro index max rfl
        cases hdefect with
        | literal hfull v => rw [length_filter_locate_assemble, hfull]

/-- An operator without an operation deep in the tree: the instructions of what comes before it are
logged. Without it the log ends with the size of the unit. -/
theorem compile_events_deep_defect :
    let compared : List Node :=
      [.binary (.text "a") .plus (.block [.binary (.text "b") .equal (.text "a")])]
    let summed : List Node := [.binary (.text "a") .plus (.block [.text "b"])]
    let u : CodeUnit := ⟨encodeAll [.load 0, .load 1, .apply .add], #[.text "a", .text "b"]⟩
    compile compared = .error (.unsupportedOperator .equal) ∧
      (generateAll compared).events = [.emit ⟨0, .load 0⟩, .emit ⟨3, .load 1⟩, .emit ⟨6, .load 2⟩] ∧
      compile summed = .ok u ∧
      (generateAll summed).events
        = [.emit ⟨0, .load 0⟩, .emit ⟨3, .load 1⟩, .emit ⟨6, .apply .add⟩, .compiled 7 2] ∧
      (∃ before item after emits,
        (Node.block compared).postorder = before ++ item :: after ∧
        IsDefect before item (.unsupportedOperator .equal) ∧
        (generateAll compared).events = emits.map .emit ∧ EmitsOf before emits) ∧
      ∃ emits chunks, (generateAll summed).events = emits.map .emit ++ [.compiled 7 2] ∧
        decode u.code = ⟨emits, .done⟩ ∧
        (emits.map fun item => item.instr.raw).mapM RawInstr.encode = .ok chunks ∧
        chunks.flatten = u.code := by
  intro compared summed u
  have hcompared : compile compared = .error (.unsupportedOperator .equal) := by
    rw [compile_eq_emitAll]
    rfl
  have hsummed : compile summed = .ok u := by
    rw [compile_eq_emitAll]
    rfl
  obtain ⟨before, item, after, emits, hsplit, hdefect, -, hevents, hemits, -⟩ :=
    (compile_events compared).2.2.2 _ hcompared
  obtain ⟨emits', chunks, hevents', hdecode, -, hchunks, hcode, -⟩ :=
    (compile_events summed).2.2.1 u hsummed
  refine ⟨hcompared, ?_, hsummed, ?_,
    ⟨before, item, after, emits, hsplit, hdefect, hevents, hemits⟩, emits', chunks, hevents',
    hdecode, hchunks, hcode⟩
  · rw [generateAll_eq_emitAll]
    rfl
  · rw [generateAll_eq_emitAll]
    rfl

end StackMachine
