import StackMachine.Proofs.Code.Operands
import StackMachine.Proofs.Listing.Lines
import StackMachine.Proofs.StackCheck.Verdicts

/-! # Listing, check and run read the same instructions

The listing of some code, its check and its run are three loops over the bytes, and none of them
knows where the others put their cursors: the listing adds up the widths of the operands it has
read, the check and the run add the size of the layout, and the three look for missing bytes at
different times. Still each comes to the same instructions and stops at the first bytes that are
none. The listing stops for no other reason; the check stops also at a defect of the heights or of a
pool reference, and the run at any fault. So the three agree up to the first such place, and a run
that halts has executed what the listing shows.

* **`rawAt?`** — the opcode and the operands that stand at an offset of the code, each operand read
  where it stands.
* **`rawAt?_encode`** and **`rawAt?_of_stuck`** — at the start of an encoded instruction stands this
  instruction, and at stuck bytes none.
* **`CodeUnit.check_eq_error`** — where the check stops: behind the complete instructions, or at one
  of them.
* **`RunOutcome.executed`** — the instructions that a run has executed, by offset and opcode.
* **`CodeUnit.exists_encodeAll_of_result`** — a run that halts has executed all instructions of the
  code, in order.
* **`listCode_agrees`** — the listing against the check and the run. -/

namespace StackMachine

/-! ## Reading an instruction where it stands -/

/-- Reads operands of given widths that stand one after the other from an offset on. -/
def operandsAt? (code : List UInt8) (offset : Nat) : (widths : List Nat) → Option (List Nat)
  | [] => some []
  | width :: widths => do
    let operand ← readOperand? code.toArray offset width
    let operands ← operandsAt? code (offset + width) widths
    return operand :: operands

/-- **Reads the instruction at an offset**: the opcode of the byte there, and the operands behind
it. -/
def rawAt? (code : List UInt8) (offset : Nat) : Option RawInstr := do
  let byte ← code[offset]?
  let op ← Opcode.ofByte? byte
  let operands ← operandsAt? code (offset + 1) op.layout.widths
  return ⟨op, operands⟩

/-- Operands that fit in their widths are read back, whatever stands before and behind them. -/
theorem operandsAt?_append {fields : List (Nat × Nat)}
    (hfit : ∀ field ∈ fields, field.1 < Nat.pow 256 field.2 ∧ field.1 < UInt64.size)
    (before after : List UInt8) :
    operandsAt? (before ++ (fields.flatMap (fun field => bigEndian field.2 field.1) ++ after))
      before.length (fields.map Prod.snd) = some (fields.map Prod.fst) := by
  induction fields generalizing before with
  | nil => rfl
  | cons field rest ih =>
    obtain ⟨hwidth, hword⟩ := hfit field List.mem_cons_self
    -- the first field is read where it stands, and the others stand behind it
    have hrest := ih (fun other hother => hfit other (List.mem_cons_of_mem _ hother))
      (before ++ bigEndian field.2 field.1)
    rw [List.length_append, length_bigEndian, List.append_assoc] at hrest
    rw [List.flatMap_cons, List.append_assoc, List.map_cons, List.map_cons, operandsAt?,
      readOperand?_bigEndian hwidth hword]
    simp only [hrest, Option.bind_eq_bind, Option.bind_some, Option.pure_def]

/-- The operands of an instruction fit in the widths of its opcode. -/
theorem Instr.lt_of_mem_fields {i : Instr} {field : Nat × Nat}
    (h : field ∈ i.operands.zip i.opcode.layout.widths) :
    field.1 < Nat.pow 256 field.2 ∧ field.1 < UInt64.size := by
  cases i with
  | load index =>
    cases List.mem_singleton.mp h
    have hindex : index.toNat < UInt16.size := index.toNat_lt_size
    exact ⟨hindex, Nat.lt_trans hindex (by decide)⟩
  | apply op => cases h

/-- An instruction has as many operands as its opcode. -/
theorem Instr.length_operands (i : Instr) : i.operands.length = i.opcode.layout.widths.length := by
  rcases i with index | (_ | _ | _ | _) <;> rfl

/-- **At the start of an encoded instruction stands this instruction.** -/
theorem rawAt?_encode (i : Instr) (before after : List UInt8) :
    rawAt? (before ++ (i.encode ++ after)) before.length = some i.raw := by
  have hbyte : (before ++ (i.encode ++ after))[before.length]? = some i.opcode.byte := by
    rw [List.getElem?_append_right (Nat.le_refl _), Nat.sub_self, Instr.encode]
    rfl
  -- the operands stand behind the opcode byte
  have hfields := operandsAt?_append (fun field hfield => Instr.lt_of_mem_fields (i := i) hfield)
    (before ++ [i.opcode.byte]) after
  rw [List.map_fst_zip (Nat.le_of_eq i.length_operands),
    List.map_snd_zip (Nat.le_of_eq i.length_operands.symm), List.length_append,
    List.append_assoc] at hfields
  have hoperands : operandsAt? (before ++ (i.encode ++ after)) (before.length + 1)
      i.opcode.layout.widths = some i.operands := hfields
  simp only [rawAt?, hbyte, Opcode.ofByte?_byte, hoperands, Option.bind_eq_bind, Option.bind_some,
    Option.pure_def]
  rfl

/-- **At stuck bytes stands no instruction.** -/
theorem rawAt?_of_stuck {before tail : List UInt8} {stop : Stop}
    (h : Stuck tail before.length stop) :
    rawAt? (before ++ tail) before.length = none := by
  have hbyte : (before ++ tail)[before.length]? = tail.head? := by
    rw [List.getElem?_append_right (Nat.le_refl _), Nat.sub_self, List.head?_eq_getElem?]
  rw [rawAt?, hbyte]
  cases h with
  | done => rfl
  | unknownOpcode hnone rest =>
    simp only [List.head?_cons, hnone, Option.bind_eq_bind, Option.bind_some, Option.bind_none]
  | @truncated rest hshort =>
    -- the field of the operand reaches past the end
    have hfield : readOperand? (before ++ Opcode.constant.byte :: rest).toArray
        (before.length + 1) 2 = none := readOperand?_of_short before hshort
    simp only [List.head?_cons, Opcode.ofByte?_byte, Opcode.layout, operandsAt?, hfield,
      Option.bind_eq_bind, Option.bind_some, Option.bind_none]

/-- The instructions of an encoding, read one by one where they stand. -/
theorem mapM_rawAt?_locateFrom (before : List UInt8) (instrs : List Instr) :
    (locateFrom before.length #[] instrs).mapM
        (fun item => rawAt? (before ++ encodeAll instrs) item.offset)
      = some (instrs.map Instr.raw) := by
  induction instrs generalizing before with
  | nil => rfl
  | cons i rest ih =>
    have hrest := ih (before ++ i.encode)
    rw [List.length_append, Instr.length_encode, List.append_assoc] at hrest
    rw [locateFrom_cons, encodeAll_cons, List.mapM_cons, rawAt?_encode, hrest]
    rfl

/-! ## Where the check stops -/

/-- **A check that fails stops behind the complete instructions**, where decoding does, **or at one
of them**. -/
theorem CodeUnit.check_eq_error {u : CodeUnit} {instrs : List Instr} {stop : Stop} {c : CheckError}
    (hdecode : decode u.code = ⟨locate instrs, stop⟩) (h : u.check = .error c) :
    (∃ cause, stop.error? = some cause ∧ c = .malformed cause) ∨
    (∃ offset op needed, offset < (encodeAll instrs).length ∧ c = .underflow offset op needed) ∨
    ∃ offset index size, offset < (encodeAll instrs).length ∧
      c = .constantOutOfRange offset index size := by
  rw [CodeUnit.check_eq_follow, hdecode] at h
  rcases StackProfile.follow_eq_error h with hitems | ⟨before, cause, -, hcause, rfl⟩
  · obtain ⟨first, i, rest, before, rfl, -, hstop⟩ := StackProfile.exists_advance_eq_error hitems
    rw [Nat.zero_add] at hstop
    have hinside : (encodeAll first).length < (encodeAll (first ++ i :: rest)).length := by
      have hpos := i.size_pos
      rw [encodeAll_append, List.length_append, length_encodeAll_cons]
      omega
    obtain ⟨index, -, -, rfl⟩ | ⟨op, -, -, rfl⟩ := StackProfile.advance_eq_error hstop
    · exact Or.inr (Or.inr ⟨_, _, _, hinside, rfl⟩)
    · exact Or.inr (Or.inl ⟨_, _, _, hinside, rfl⟩)
  · exact Or.inl ⟨cause, hcause, rfl⟩

/-- Code that passes the check can be listed. -/
theorem CodeUnit.exists_listCode_of_check {u : CodeUnit} {profile : StackProfile}
    (h : u.check = .ok profile) :
    ∃ text, listCode u.code = .ok text := by
  obtain ⟨instrs, hcode⟩ := exists_encodeAll_of_stop_eq_done (CodeUnit.follow_of_check h).2
  rw [hcode]
  exact ⟨_, listCode_encodeAll instrs⟩

/-- Code that the check finds malformed cannot be listed, for the same reason. -/
theorem CodeUnit.listCode_of_check_malformed {u : CodeUnit} {e : InstrError}
    (h : u.check = .error (.malformed e)) :
    listCode u.code = .error e := by
  obtain ⟨instrs, tail, -, -, hdecode⟩ := exists_encodeAll_append_stuck u.code
  rw [listCode_eq_error_iff]
  obtain ⟨cause, hcause, hmalformed⟩ | ⟨offset, op, needed, -, hunderflow⟩ |
      ⟨offset, index, size, -, hrange⟩ := CodeUnit.check_eq_error hdecode h
  · cases hmalformed
    exact hcause
  · cases hunderflow
  · cases hrange

/-- **Code that cannot be listed does not pass the check**: the check finds it malformed for the
same reason, or stops earlier at an instruction. -/
theorem CodeUnit.check_of_listCode {u : CodeUnit} {e : InstrError}
    (h : listCode u.code = .error e) :
    ∃ instrs tail stop, u.code = encodeAll instrs ++ tail ∧
      Stuck tail (encodeAll instrs).length stop ∧
      stop.error? = some e ∧ rawAt? u.code (encodeAll instrs).length = none ∧
      (u.check = .error (.malformed e) ∨
        (∃ offset op needed, offset < (encodeAll instrs).length ∧
          u.check = .error (.underflow offset op needed)) ∨
        ∃ offset index size, offset < (encodeAll instrs).length ∧
          u.check = .error (.constantOutOfRange offset index size)) := by
  obtain ⟨instrs, tail, hcode, hstuck, hdecode⟩ := exists_encodeAll_append_stuck u.code
  have hstop := listCode_eq_error_iff.mp h
  have hnone := rawAt?_of_stuck hstuck
  rw [← hcode] at hnone
  refine ⟨instrs, tail, _, hcode, hstuck, hstop, hnone, ?_⟩
  cases hcheck : u.check with
  | ok profile =>
    obtain ⟨text, htext⟩ := CodeUnit.exists_listCode_of_check hcheck
    rw [h] at htext
    cases htext
  | error c =>
    simp only [Except.error.injEq]
    obtain ⟨cause, hcause, rfl⟩ | hinside := CodeUnit.check_eq_error hdecode hcheck
    · rw [hstop] at hcause
      cases hcause
      exact Or.inl rfl
    · exact Or.inr hinside

/-! ## What a run has executed -/

/-- The instruction that a located instruction is reported as. -/
def Located.site (item : Located) : Nat × Opcode := (item.offset, item.instr.opcode)

/-- **The instructions that a run has executed**, in order: the offsets where they start, and their
opcodes. -/
def RunOutcome.executed (r : RunOutcome) : List (Nat × Opcode) := r.events.filterMap RunEvent.site?

/-- A traversal that goes on to the end has executed every instruction once, in order. -/
theorem filterMap_site?_traverse {pool : Array Value} {capacity : Nat} {live live' : List Value}
    {items : List Located} (h : (traverse pool capacity live items).effect = .next live') :
    (traverse pool capacity live items).log.filterMap RunEvent.site? = items.map Located.site := by
  induction items generalizing live with
  | nil => rfl
  | cons item rest ih =>
    rw [traverse] at h ⊢
    cases heffect : item.instr.effect pool capacity live with
    | fault e left => simp [heffect] at h
    | next middle =>
      simp only [heffect, Traversal.andThen_next] at h ⊢
      rw [List.filterMap_append, ih h, List.map_cons]
      rfl

/-- **A run that halts** is that of complete instructions, all of which it has executed, in
order. -/
theorem CodeUnit.exists_encodeAll_of_result {u : CodeUnit} {capacity : Nat} {top? : Option Value}
    (h : (Machine.load u capacity).run.result = .ok top?) :
    ∃ instrs, u.code = encodeAll instrs ∧
      (Machine.load u capacity).run.executed = (locate instrs).map Located.site := by
  cases hcheck : u.check with
  | error c => exact absurd h (CodeUnit.result_ne_ok_of_check hcheck capacity top?)
  | ok profile =>
    obtain ⟨-, hstop⟩ := CodeUnit.follow_of_check hcheck
    obtain ⟨instrs, hcode⟩ := exists_encodeAll_of_stop_eq_done hstop
    have htraverse : u.traverse capacity
        = StackMachine.traverse u.pool capacity [] (locate instrs) := by
      rw [CodeUnit.traverse, hcode, decode_encodeAll, Traversal.andThen_conclude_done]
    refine ⟨instrs, hcode, ?_⟩
    rw [Machine.run_load, htraverse] at h ⊢
    cases heffect : (StackMachine.traverse u.pool capacity [] (locate instrs)).effect with
    | fault e live => simp [Traversal.outcome, heffect] at h
    | next live =>
      -- the closing event of the log reports no instruction
      simp only [RunOutcome.executed, Traversal.outcome, heffect]
      rw [List.filterMap_append, filterMap_site?_traverse heffect]
      exact List.append_nil _

/-- **A run that halts has executed what the listing shows**: at the places of the executed
instructions stand raw instructions with their opcodes, and the lines of these are the listing. -/
theorem CodeUnit.listCode_of_result {u : CodeUnit} {capacity : Nat} {top? : Option Value}
    (h : (Machine.load u capacity).run.result = .ok top?) :
    ∃ raws,
      (Machine.load u capacity).run.executed.mapM (fun site => rawAt? u.code site.1) = some raws ∧
      raws.map RawInstr.op = (Machine.load u capacity).run.executed.map Prod.snd ∧
      listCode u.code = .ok (joinLines (raws.map RawInstr.line)) := by
  obtain ⟨instrs, hcode, hexecuted⟩ := CodeUnit.exists_encodeAll_of_result h
  rw [hexecuted, hcode]
  refine ⟨instrs.map Instr.raw, ?_, ?_, ?_⟩
  · rw [List.mapM_map]
    exact mapM_rawAt?_locateFrom [] instrs
  · rw [List.map_map, List.map_map]
    exact (map_locate Instr.opcode instrs).symm
  · rw [listCode_encodeAll, List.map_map]
    rfl

/-- **The listing against the check and the run**, each by its own loop. Code that passes the check
can be listed, and code that the check finds malformed cannot, for the same reason. When the code
cannot be listed, it has an undecodable instruction behind complete ones, and the check finds it
malformed for the same reason or stops before that instruction, at too few values or at a pool
reference. On any number of slots a run that meets a byte that is no opcode, or an incomplete
instruction, is that of code whose listing fails there too; and a run that halts has executed
exactly the instructions of the listing, a line for each in the order of execution. -/
theorem listCode_agrees (u : CodeUnit) :
    (∀ profile, u.check = .ok profile → ∃ text, listCode u.code = .ok text) ∧
    (∀ e, u.check = .error (.malformed e) → listCode u.code = .error e) ∧
    (∀ e, listCode u.code = .error e →
      ∃ instrs tail stop, u.code = encodeAll instrs ++ tail ∧
        Stuck tail (encodeAll instrs).length stop ∧
        stop.error? = some e ∧ rawAt? u.code (encodeAll instrs).length = none ∧
        (u.check = .error (.malformed e) ∨
          (∃ offset op needed, offset < (encodeAll instrs).length ∧
            u.check = .error (.underflow offset op needed)) ∨
          ∃ offset index size, offset < (encodeAll instrs).length ∧
            u.check = .error (.constantOutOfRange offset index size))) ∧
    ∀ capacity,
      (∀ byte offset, (Machine.load u capacity).run.result = .error (.unknownOpcode byte offset) →
        listCode u.code = .error (.unknownOpcode byte)) ∧
      (∀ offset, (Machine.load u capacity).run.result = .error (.truncatedInstruction offset) →
        listCode u.code = .error (.truncated .constant offset)) ∧
      ∀ top?, (Machine.load u capacity).run.result = .ok top? →
        ∃ raws,
          (Machine.load u capacity).run.executed.mapM (fun site => rawAt? u.code site.1)
            = some raws ∧
          raws.map RawInstr.op = (Machine.load u capacity).run.executed.map Prod.snd ∧
          listCode u.code = .ok (joinLines (raws.map RawInstr.line)) := by
  refine ⟨?_, ?_, ?_, ?_⟩
  · intro profile hcheck
    exact CodeUnit.exists_listCode_of_check hcheck
  · intro e hcheck
    exact CodeUnit.listCode_of_check_malformed hcheck
  · intro e hlist
    exact CodeUnit.check_of_listCode hlist
  · intro capacity
    refine ⟨?_, ?_, ?_⟩
    · intro byte offset herror
      obtain ⟨site, op?, c, hcheck, hdefect, -⟩ := CodeUnit.check_of_result herror nofun nofun
      cases hdefect
      exact CodeUnit.listCode_of_check_malformed hcheck
    · intro offset herror
      obtain ⟨site, op?, c, hcheck, hdefect, -⟩ := CodeUnit.check_of_result herror nofun nofun
      cases hdefect
      exact CodeUnit.listCode_of_check_malformed hcheck
    · intro top? hok
      exact CodeUnit.listCode_of_result hok

/-- Two loads and an operation are executed as they are listed; with a byte behind them that is no
opcode, neither the run nor the listing gets to the end. -/
theorem listCode_agrees_addition :
    let code := encodeAll [.load 1, .load 0, .apply .add]
    let pool : Array Value := #[.text "a", .text "b"]
    let run := (Machine.load ⟨code, pool⟩ 2).run
    (∃ top?, run.result = .ok top?) ∧
      run.executed = [(0, .constant), (3, .constant), (6, .arith .add)] ∧
      (∃ raws, run.executed.mapM (fun site => rawAt? code site.1) = some raws ∧
        raws.map RawInstr.op = run.executed.map Prod.snd ∧
        listCode code = .ok (joinLines (raws.map RawInstr.line))) ∧
      (Machine.load ⟨code ++ [0xee], pool⟩ 2).run.result = .error (.unknownOpcode 0xee 7) ∧
      listCode (code ++ [0xee]) = .error (.unknownOpcode 0xee) := by
  intro code pool run
  have hrun := Machine.run_load ⟨code, pool⟩ 2
  have hhalts : ∃ top?, run.result = .ok top? := ⟨_, congrArg RunOutcome.result hrun⟩
  have herror : (Machine.load ⟨code ++ [0xee], pool⟩ 2).run.result
      = .error (.unknownOpcode 0xee 7) :=
    congrArg RunOutcome.result (Machine.run_load ⟨code ++ [0xee], pool⟩ 2)
  obtain ⟨top?, hok⟩ := hhalts
  exact ⟨⟨top?, hok⟩, congrArg RunOutcome.executed hrun,
    ((listCode_agrees ⟨code, pool⟩).2.2.2 2).2.2 top? hok, herror,
    ((listCode_agrees ⟨code ++ [0xee], pool⟩).2.2.2 2).1 _ _ herror⟩

end StackMachine
