import StackMachine.Proofs.StackCheck.Supply

/-! # Pool references of compiled code

Each literal of a program becomes a constant of the pool and a load that refers to it, and the pool
has no other constants. So the loads of compiled code, read in order, refer to the constants one
after the other, and none of the readers of the code (the listing, the check and the machine) ever
meets a bad byte or a reference past the pool.

* **`filter_assemble`** — the loads among assembled instructions have consecutive indexes.
* **`Assembled.loads_eq`** — in a unit they have the indexes of the pool.
* **`Assembled.result_ne`** — what the run of a unit cannot fail with.
* **`compile_pool_references`** — all of it for compiled programs. -/

namespace StackMachine

/-! ## Loads and their lines -/

/-- Whether an instruction is a load. -/
def Instr.isLoad (i : Instr) : Bool := i.opcode = .constant

/-- The line of a load: the mnemonic and the index. -/
theorem Instr.line_load (index : UInt16) :
    (Instr.load index).line = "Constant " ++ toString index.toNat :=
  rfl

/-- The lines of the loads are those that start with their mnemonic. -/
theorem Instr.startsWith_line (i : Instr) : i.line.startsWith "Constant" = i.isLoad := by
  rw [Bool.eq_iff_iff, String.startsWith_string_iff]
  cases i with
  | load index =>
    have hmnemonic : "Constant".toList <+: "Constant ".toList := by decide
    rw [Instr.line_load, String.toList_append]
    exact iff_of_true (hmnemonic.trans (List.prefix_append _ _)) rfl
  | apply op => cases op <;> decide

/-- **The loads among assembled instructions** have consecutive indexes, one for each literal. -/
theorem filter_assemble (start : Nat) (items : List PostItem) :
    (assemble start items).filter Instr.isLoad
      = (List.range' start (literals items).length).map fun index =>
        .load (UInt16.ofNat index) := by
  induction items generalizing start with
  | nil => rfl
  | cons item rest ih =>
    cases item with
    | literal v =>
      rw [assemble, literals, List.length_cons, List.range'_succ, List.map_cons,
        List.filter_cons_of_pos rfl, ih]
    | operator op =>
      have hliterals : literals (.operator op :: rest) = literals rest := rfl
      rw [assemble, hliterals]
      cases op.arith? with
      | none => exact ih start
      | some operation => rw [List.filter_cons_of_neg Bool.false_ne_true, ih]
    | other kind => exact ih start

namespace Assembled

variable {items : List PostItem} {u : CodeUnit}

/-- The code of an assembled unit is decoded to the end. -/
theorem decode_eq (h : Assembled items u) : decode u.code = ⟨locate (assemble 0 items), .done⟩ := by
  rw [h.code_eq, decode_encodeAll]

/-- **The loads of an assembled unit** go through its pool. -/
theorem loads_eq (h : Assembled items u) :
    (assemble 0 items).filter Instr.isLoad
      = (List.range u.pool.size).map fun index => .load (UInt16.ofNat index) := by
  rw [filter_assemble, h.size_pool, List.range_eq_range']

/-- Every index of the pool can be held by a load. -/
theorem toNat_ofNat_of_mem_range (h : Assembled items u) {index : Nat}
    (hindex : index ∈ List.range u.pool.size) : (UInt16.ofNat index).toNat = index := by
  have hlt := List.mem_range.mp hindex
  have hle := h.length_literals_le
  rw [h.size_pool] at hlt
  exact toNat_ofNat_of_le_maxIndex (by omega)

/-- The listing of an assembled unit. -/
theorem lines_eq (h : Assembled items u) :
    (decode u.code).lines = .ok ((assemble 0 items).map Instr.line) := by
  have hmap : (locate (assemble 0 items)).map (fun item => item.instr.line)
      = (assemble 0 items).map Instr.line := by
    rw [← map_instr_locateFrom 0 (assemble 0 items), List.map_map, locate, map_instr_locateFrom]
    rfl
  rw [h.decode_eq, Decoded.lines]
  simp only [Stop.error?, hmap]

/-- **The lines of the loads** in the listing of an assembled unit name the indexes of the pool. -/
theorem filter_lines (h : Assembled items u) :
    ((assemble 0 items).map Instr.line).filter (fun line => line.startsWith "Constant")
      = (List.range u.pool.size).map fun index => "Constant " ++ toString index := by
  have hloads : ((fun line : String => line.startsWith "Constant") ∘ Instr.line) = Instr.isLoad :=
    funext Instr.startsWith_line
  rw [List.filter_map, hloads, h.loads_eq, List.map_map]
  refine List.map_congr_left fun index hindex => ?_
  rw [Function.comp_apply, Instr.line_load, h.toNat_ofNat_of_mem_range hindex]

/-- **The operands of the loads** of an assembled unit are the indexes of the pool. -/
theorem map_operands (h : Assembled items u) :
    ((decode u.code).instrs.filter fun item => item.instr.isLoad).map
        (fun item => item.instr.operands)
      = (List.range u.pool.size).map fun index => [index] := by
  have hfilter : ((locate (assemble 0 items)).filter fun item => item.instr.isLoad).map
        Located.instr
      = (List.range u.pool.size).map fun index => .load (UInt16.ofNat index) := by
    rw [← h.loads_eq, ← map_instr_locateFrom 0 (assemble 0 items), List.filter_map, locate,
      map_instr_locateFrom]
    rfl
  rw [h.decode_eq]
  have hoperands := congrArg (List.map Instr.operands) hfilter
  rw [List.map_map, List.map_map] at hoperands
  refine hoperands.trans (List.map_congr_left fun index hindex => ?_)
  rw [Function.comp_apply, Instr.operands, h.toNat_ofNat_of_mem_range hindex]

/-- The check of an assembled unit reports nothing but an underflow. -/
theorem check_ne (h : Assembled items u) {c : CheckError}
    (hc : ∀ offset op, c ≠ .underflow offset (.arith op) 2) :
    u.check ≠ .error c := by
  intro hcheck
  rcases h.check_cases with ⟨-, profile, hok⟩ | ⟨-, offset, op, hfails⟩
  · rw [hcheck] at hok
    cases hok
  · rw [hcheck] at hfails
    exact hc offset op (Except.error.inj hfails)

/-- **What the run of an assembled unit cannot fail with**: anything but the operands of an
operation, and too many or too few values on the stack. -/
theorem result_ne (h : Assembled items u) (capacity : Nat) {e : RuntimeError}
    (hoperands : ¬ OperandFault e) (hover : e ≠ .stackOverflow capacity)
    (hunder : e ≠ .stackUnderflow) :
    (Machine.load u capacity).run.result ≠ .error e := by
  intro herror
  -- a fault of any other kind is a defect that the check reports too
  obtain ⟨offset, op?, c, hcheck, hdefect, -⟩ := CodeUnit.check_of_result herror hoperands hover
  refine h.check_ne ?_ hcheck
  rintro offset' op rfl
  cases hdefect
  exact hunder rfl

end Assembled

/-! ## Compiled programs -/

/-- **Pool references of compiled code.** The code of a compiled program can be listed. The lines of
its loads and their operands go through the indexes of the pool, each once and in order, and there
are no more of them than two bytes can number. The check finds no bad byte and no reference past the
pool, and neither does any run. -/
theorem compile_pool_references {program : List Node} {u : CodeUnit} (h : compile program = .ok u) :
    (∃ lines, (decode u.code).lines = .ok lines ∧ listCode u.code = .ok (joinLines lines) ∧
      lines.filter (fun line => line.startsWith "Constant")
        = (List.range u.pool.size).map fun index => "Constant " ++ toString index) ∧
    ((decode u.code).instrs.filter fun item => item.instr.isLoad).map
        (fun item => item.instr.operands)
      = (List.range u.pool.size).map (fun index => [index]) ∧
    u.pool.size ≤ 65536 ∧
    (∀ cause, u.check ≠ .error (.malformed cause)) ∧
    (∀ offset index size, u.check ≠ .error (.constantOutOfRange offset index size)) ∧
    (∀ capacity,
      (∀ byte offset, (Machine.load u capacity).run.result ≠ .error (.unknownOpcode byte offset)) ∧
      (∀ offset, (Machine.load u capacity).run.result ≠ .error (.truncatedInstruction offset)) ∧
      (∀ index size, (Machine.load u capacity).run.result
        ≠ .error (.constantOutOfRange index size))) := by
  have hassembled := assembled_of_compile h
  refine ⟨⟨_, hassembled.lines_eq, ?_, hassembled.filter_lines⟩, hassembled.map_operands, ?_,
    ?_, ?_, ?_⟩
  · rw [listCode_eq_lines, hassembled.lines_eq]
    rfl
  · rw [hassembled.size_pool]
    exact hassembled.length_literals_le
  · exact fun cause => hassembled.check_ne nofun
  · exact fun offset index size => hassembled.check_ne nofun
  · intro capacity
    exact ⟨fun byte offset => hassembled.result_ne capacity nofun nofun nofun,
      fun offset => hassembled.result_ne capacity nofun nofun nofun,
      fun index size => hassembled.result_ne capacity nofun nofun nofun⟩

/-- Three literals, one of them in a block that is an operand: the loads refer to the three
constants in order. -/
theorem compile_pool_references_nested :
    let program : List Node := [.binary (.text "a") .plus (.block [.text "b"]), .text "a"]
    let u : CodeUnit :=
      ⟨encodeAll [.load 0, .load 1, .apply .add, .load 2], #[.text "a", .text "b", .text "a"]⟩
    compile program = .ok u ∧
      ((decode u.code).instrs.filter fun item => item.instr.isLoad).map
          (fun item => item.instr.operands)
        = [[0], [1], [2]] := by
  intro program u
  have hcompile : compile program = .ok u := by
    rw [compile_eq_emitAll]
    rfl
  exact ⟨hcompile, (compile_pool_references hcompile).2.1⟩

end StackMachine
