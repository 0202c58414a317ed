import StackMachine.CodeUnit.Listing
import StackMachine.Machine.Run
import StackMachine.Proofs.Code.Decoding
import StackMachine.Proofs.Code.Operands
import StackMachine.StackCheck

/-! # Three loops over the bytes of a unit

The listing, the check and the run each go through the bytes of the code with a cursor of their own.
The listing moves it operand by operand, the other two by the size of the layout; the check looks
for missing bytes in two ways, and the run logs an instruction before it reads its operand. Still
each loop comes to the same instructions as `decode`, in the same order, and stops where `decode`
does:

* **`Decoded.lines`**, **`StackProfile.follow`** and **`execute`** — the three passes over a decoded
  stream.
* **`listFrom_encode`**, **`checkFrom_encode`** and **`runFrom_encode`** — a loop whose cursor
  stands at an encoded instruction treats this instruction and goes on behind it.
* **`listFrom_of_stuck`**, **`checkFrom_of_stuck`** and **`runFrom_of_stuck`** — a loop whose cursor
  stands at stuck bytes ends there.
* **`listCode_eq_lines`**, **`CodeUnit.check_eq_follow`** and **`runFrom_eq_execute`** — each loop
  is its pass over the decoded stream. -/

namespace StackMachine

/-! ## Passes over a decoded stream -/

/-- The lines of a decoded stream, or the error at which it stops. -/
def Decoded.lines (d : Decoded) : Except InstrError (List String) :=
  match d.stop.error? with
  | some e => .error e
  | none => .ok (d.instrs.map fun item => item.instr.line)

/-- Carries a profile over one instruction: the pool reference is checked before the height. -/
def StackProfile.advance (size : Nat) (profile : StackProfile) (item : Located) :
    Except CheckError StackProfile :=
  match item.instr with
  | .load index =>
    if index.toNat < size then
      .ok ⟨max profile.maxDepth (profile.finalDepth + 1), profile.finalDepth + 1⟩
    else .error (.constantOutOfRange item.offset index.toNat size)
  | .apply op =>
    if 2 ≤ profile.finalDepth then
      .ok ⟨max profile.maxDepth (profile.finalDepth - 1), profile.finalDepth - 1⟩
    else .error (.underflow item.offset (.arith op) 2)

/-- Carries a profile over the rest of a decoded stream. -/
def StackProfile.follow (size : Nat) (stop : Stop) :
    StackProfile → List Located → Except CheckError StackProfile
  | profile, [] =>
    match stop.error? with
    | some cause => .error (.malformed cause)
    | none => .ok profile
  | profile, item :: rest =>
    match profile.advance size item with
    | .ok next => follow size stop next rest
    | .error e => .error e

/-- Executes one instruction. -/
def step (pool : Array Value) (stack : OperandStack) : Instr → StepResult
  | .load index => loadEntry pool stack index.toNat
  | .apply op => applyTop stack op

/-- How a run ends where decoding stopped: a byte that is no opcode logs nothing, an incomplete
instruction is recognised before it faults. -/
def finish (stack : OperandStack) (events : Array RunEvent) : Stop → StepResult × Array RunEvent
  | .done => (.next stack, events)
  | .unknownOpcode byte offset => (.fault (.unknownOpcode byte offset) stack, events)
  | .truncated op offset =>
    (.fault (.truncatedInstruction offset) stack, events.push (.exec offset op stack.height))

/-- Executes the instructions of a decoded stream in order and logs each one before it executes. -/
def execute (pool : Array Value) (stop : Stop) :
    OperandStack → Array RunEvent → List Located → StepResult × Array RunEvent
  | stack, events, [] => finish stack events stop
  | stack, events, item :: rest =>
    let events := events.push (.exec item.offset item.instr.opcode stack.height)
    match step pool stack item.instr with
    | .next stack' => execute pool stop stack' events rest
    | .fault e stack' => (.fault e stack', events)

/-! ## What stands at the cursor -/

/-- Every opcode is recognised by its byte. -/
@[simp] theorem Opcode.ofByte_byte (op : Opcode) : Opcode.ofByte op.byte = .ok op := by
  rw [Opcode.ofByte, Opcode.ofByte?_byte]

/-- Any other byte is named in the error. -/
theorem Opcode.ofByte_of_eq_none {byte : UInt8} (h : Opcode.ofByte? byte = none) :
    Opcode.ofByte byte = .error (.unknownOpcode byte) := by
  rw [Opcode.ofByte, h]

section Cursor

variable (before : List UInt8) (byte : UInt8) (rest : List UInt8)

/-- A cursor with a byte at it is inside the code. -/
theorem length_lt_size_toArray : before.length < (before ++ byte :: rest).toArray.size := by
  simp

/-- The byte at a cursor. -/
@[simp] theorem getElem_toArray_length
    (hinside : before.length < (before ++ byte :: rest).toArray.size) :
    (before ++ byte :: rest).toArray[before.length] = byte := by
  simp

/-- Behind the opcode of a load its index is read. -/
theorem readOperand?_encode_load (index : UInt16) (after : List UInt8) :
    readOperand? (before ++ ((Instr.load index).encode ++ after)).toArray (before.length + 1)
      Opcode.indexWidth = some index.toNat := by
  have hwidth : index.toNat < Nat.pow 256 Opcode.indexWidth := index.toNat_lt_size
  have hword : index.toNat < UInt64.size := Nat.lt_trans hwidth (by decide)
  have hread := readOperand?_bigEndian hwidth hword (before ++ [Opcode.constant.byte]) after
  rw [List.length_append, List.append_assoc] at hread
  exact hread

/-- An incomplete operand of a load cannot be read. -/
theorem readOperand?_of_short {rest : List UInt8} (hshort : rest.length < 2) :
    readOperand? (before ++ Opcode.constant.byte :: rest).toArray (before.length + 1)
      Opcode.indexWidth = none := by
  rw [readOperand?_eq_none_iff, List.length_append, List.length_cons]
  show _ < before.length + 1 + 2
  omega

end Cursor

/-- **A cursor at an encoded instruction** is inside the code and at the opcode of the
instruction. -/
theorem exists_ofByte_encode (before : List UInt8) (i : Instr) (after : List UInt8) :
    ∃ hinside : before.length < (before ++ (i.encode ++ after)).toArray.size,
      Opcode.ofByte (before ++ (i.encode ++ after)).toArray[before.length] = .ok i.opcode := by
  obtain ⟨rest, hbytes⟩ : ∃ rest, i.encode ++ after = i.opcode.byte :: rest := ⟨_, rfl⟩
  rw [hbytes]
  exact ⟨length_lt_size_toArray _ _ _, by simp⟩

/-- Bytes that are stuck behind some instructions are so, too, when the cursor has moved over the
first instruction. -/
theorem Stuck.behind {before tail : List UInt8} {i : Instr} {rest : List Instr} {stop : Stop}
    (h : Stuck tail (before.length + (encodeAll (i :: rest)).length) stop) :
    Stuck tail ((before ++ i.encode).length + (encodeAll rest).length) stop := by
  rwa [List.length_append, i.length_encode, Nat.add_assoc, ← length_encodeAll_cons]

/-! ## The listing -/

/-- Behind the opcode of an instruction its operands are listed, and the cursor moves over them. -/
theorem appendOperands?_encode (before : List UInt8) (i : Instr) (after : List UInt8) :
    appendOperands? (before ++ (i.encode ++ after)).toArray i.opcode.layout.widths
      (before.length + 1) i.opcode.mnemonic = some (i.line, before.length + i.size) := by
  cases i with
  | load index =>
    have hread := readOperand?_encode_load before index after
    show appendOperands? _ [Opcode.indexWidth] _ _ = _
    simp only [appendOperands?, hread]
    rfl
  | apply op => cases op <;> rfl

/-- A line that is complete is appended, and the listing goes on behind it. -/
theorem listFrom_of_eq_some {bytes : Array UInt8} {offset stop : Nat} {op : Opcode} {line : String}
    (hinside : offset < bytes.size) (hop : Opcode.ofByte bytes[offset] = .ok op)
    (hline : appendOperands? bytes op.layout.widths (offset + 1) op.mnemonic = some (line, stop))
    (lines : Array String) :
    listFrom bytes offset lines = listFrom bytes stop (lines.push line) := by
  rw [listFrom, dif_pos hinside]
  simp only [hop]
  -- the loop ends by the equation of its match, which therefore is split and not rewritten
  split
  · next hnone => cases hline.symm.trans hnone
  · next hsome =>
    cases hline.symm.trans hsome
    rfl

/-- A line that is incomplete ends the listing. -/
theorem listFrom_of_eq_none {bytes : Array UInt8} {offset : Nat} {op : Opcode}
    (hinside : offset < bytes.size) (hop : Opcode.ofByte bytes[offset] = .ok op)
    (hline : appendOperands? bytes op.layout.widths (offset + 1) op.mnemonic = none)
    (lines : Array String) : listFrom bytes offset lines = .error (.truncated op offset) := by
  rw [listFrom, dif_pos hinside]
  simp only [hop]
  split
  · rfl
  · next hsome => cases hline.symm.trans hsome

/-- **The listing at an encoded instruction** appends its line and goes on behind it. -/
theorem listFrom_encode (before : List UInt8) (i : Instr) (after : List UInt8)
    (lines : Array String) :
    listFrom (before ++ (i.encode ++ after)).toArray before.length lines
      = listFrom (before ++ (i.encode ++ after)).toArray (before.length + i.size)
          (lines.push i.line) := by
  obtain ⟨hinside, hop⟩ := exists_ofByte_encode before i after
  exact listFrom_of_eq_some hinside hop (appendOperands?_encode before i after) lines

/-- **The listing at stuck bytes** ends with the error they stand for, if any. -/
theorem listFrom_of_stuck {before tail : List UInt8} {stop : Stop}
    (h : Stuck tail before.length stop) (lines : Array String) :
    listFrom (before ++ tail).toArray before.length lines
      = match stop.error? with
        | some e => .error e
        | none => .ok lines := by
  cases h with
  | done =>
    rw [listFrom, dif_neg (by simp)]
    rfl
  | unknownOpcode hnone rest =>
    rw [listFrom, dif_pos (length_lt_size_toArray _ _ _)]
    simp only [getElem_toArray_length, Opcode.ofByte_of_eq_none hnone]
    rfl
  | @truncated rest hshort =>
    have hline : appendOperands? (before ++ Opcode.constant.byte :: rest).toArray
        Opcode.constant.layout.widths (before.length + 1) Opcode.constant.mnemonic = none := by
      have hread := readOperand?_of_short before hshort
      show appendOperands? _ [Opcode.indexWidth] _ _ = _
      simp only [appendOperands?, hread]
    exact listFrom_of_eq_none (length_lt_size_toArray _ _ _) (by simp) hline lines

/-- The listing of instructions and the stuck bytes behind them. -/
theorem listFrom_encodeAll (before : List UInt8) {tail : List UInt8} {instrs : List Instr}
    {stop : Stop} (h : Stuck tail (before.length + (encodeAll instrs).length) stop)
    (lines : Array String) :
    listFrom (before ++ (encodeAll instrs ++ tail)).toArray before.length lines
      = match stop.error? with
        | some e => .error e
        | none => .ok (lines ++ (instrs.map Instr.line).toArray) := by
  induction instrs generalizing before lines with
  | nil =>
    rw [List.map_nil, Array.append_empty]
    exact listFrom_of_stuck h lines
  | cons i rest ih =>
    -- behind the first instruction the bytes before the cursor are `before ++ i.encode`
    have hrest := ih _ h.behind (lines.push i.line)
    rw [List.append_assoc, List.length_append, i.length_encode] at hrest
    rw [encodeAll_cons, List.append_assoc, listFrom_encode, hrest]
    simp

/-- **The listing is that of the decoded stream.** -/
theorem listCode_eq_lines (code : List UInt8) :
    listCode code = (decode code).lines.map joinLines := by
  obtain ⟨instrs, tail, hcode, hstuck, hdecode⟩ := exists_encodeAll_append_stuck code
  have hlist := listFrom_encodeAll [] (by simpa using hstuck) #[]
  rw [List.nil_append, ← hcode] at hlist
  rw [listCode, show (0 : Nat) = ([] : List UInt8).length from rfl, hlist, hdecode, Decoded.lines]
  cases (decode code).stop.error? with
  | some e => rfl
  | none => simp [Except.map, map_locate]

/-! ## The check -/

/-- The effect of an operation on a profile, which does not depend on the pool. -/
theorem StackProfile.apply_arith (size : Nat) (profile : StackProfile) (offset : Nat) (op : Arith) :
    profile.apply offset (.arith op) = profile.advance size ⟨offset, .apply op⟩ := by
  show (if 2 ≤ profile.finalDepth then _ else _) = if 2 ≤ profile.finalDepth then _ else _
  by_cases htwo : 2 ≤ profile.finalDepth
  · have hheight : profile.finalDepth - 2 + 1 = profile.finalDepth - 1 := by omega
    rw [if_pos htwo, if_pos htwo, hheight]
  · rw [if_neg htwo, if_neg htwo]

/-- **The check at an encoded instruction** carries the profile over it, or ends with its defect. -/
theorem checkFrom_encode (before : List UInt8) (i : Instr) (after : List UInt8) (size : Nat)
    (profile : StackProfile) :
    checkFrom (before ++ (i.encode ++ after)).toArray size before.length profile
      = match profile.advance size ⟨before.length, i⟩ with
        | .ok next =>
          checkFrom (before ++ (i.encode ++ after)).toArray size (before.length + i.size) next
        | .error e => .error e := by
  obtain ⟨hinside, hop⟩ := exists_ofByte_encode before i after
  rw [checkFrom, dif_pos hinside]
  simp only [hop]
  cases i with
  | load index =>
    have hread := readOperand?_encode_load before index after
    simp only [Instr.opcode, checkOperands, hread, StackProfile.advance]
    by_cases hindex : index.toNat < size
    · simp only [if_pos hindex, if_neg (Nat.not_le_of_lt hindex)]
      rfl
    · simp only [if_neg hindex, if_pos (Nat.le_of_not_lt hindex)]
  | apply op =>
    -- the bytes of an operation are there with its opcode
    have hcomplete : ¬ (before ++ ((Instr.apply op).encode ++ after)).toArray.size
        < before.length + (Opcode.arith op).layout.size := by
      have hsize : (Instr.apply op).encode.length = (Opcode.arith op).layout.size :=
        Instr.length_encode (.apply op)
      rw [List.size_toArray, List.length_append, List.length_append, hsize]
      omega
    simp only [Instr.opcode, checkOperands, if_neg hcomplete, StackProfile.apply_arith size]
    cases profile.advance size ⟨before.length, .apply op⟩ <;> rfl

/-- **The check at stuck bytes** ends with the error they stand for, if any. -/
theorem checkFrom_of_stuck {before tail : List UInt8} {stop : Stop}
    (h : Stuck tail before.length stop) (size : Nat) (profile : StackProfile) :
    checkFrom (before ++ tail).toArray size before.length profile
      = StackProfile.follow size stop profile [] := by
  cases h with
  | done =>
    rw [checkFrom, dif_neg (by simp)]
    rfl
  | unknownOpcode hnone rest =>
    rw [checkFrom, dif_pos (length_lt_size_toArray _ _ _)]
    simp only [getElem_toArray_length, Opcode.ofByte_of_eq_none hnone]
    rfl
  | truncated hshort =>
    rw [checkFrom, dif_pos (length_lt_size_toArray _ _ _)]
    simp only [getElem_toArray_length, Opcode.ofByte_byte, checkOperands,
      readOperand?_of_short before hshort]
    rfl

/-- The check of instructions and the stuck bytes behind them. -/
theorem checkFrom_encodeAll (before : List UInt8) {tail : List UInt8} {instrs : List Instr}
    {stop : Stop} (h : Stuck tail (before.length + (encodeAll instrs).length) stop) (size : Nat)
    (profile : StackProfile) :
    checkFrom (before ++ (encodeAll instrs ++ tail)).toArray size before.length profile
      = StackProfile.follow size stop profile (locateFrom before.length #[] instrs) := by
  induction instrs generalizing before profile with
  | nil => exact checkFrom_of_stuck h size profile
  | cons i rest ih =>
    rw [encodeAll_cons, List.append_assoc, checkFrom_encode, locateFrom_cons, StackProfile.follow]
    cases profile.advance size ⟨before.length, i⟩ with
    | error e => rfl
    | ok next =>
      have hrest := ih _ h.behind next
      rw [List.append_assoc, List.length_append, i.length_encode] at hrest
      exact hrest

/-- **The check is that of the decoded stream.** -/
theorem CodeUnit.check_eq_follow (u : CodeUnit) :
    u.check
      = StackProfile.follow u.pool.size (decode u.code).stop ⟨0, 0⟩ (decode u.code).instrs := by
  obtain ⟨instrs, tail, hcode, hstuck, hdecode⟩ := exists_encodeAll_append_stuck u.code
  have hcheck := checkFrom_encodeAll [] (by simpa using hstuck) u.pool.size ⟨0, 0⟩
  rw [List.nil_append, ← hcode] at hcheck
  rw [hdecode]
  exact hcheck

/-! ## The run -/

/-- The instruction at the cursor is executed as it is decoded. -/
theorem executeAt_encode (before : List UInt8) (i : Instr) (after : List UInt8)
    (pool : Array Value) (stack : OperandStack) :
    executeAt (before ++ (i.encode ++ after)).toArray pool before.length stack i.opcode
      = step pool stack i := by
  cases i with
  | load index =>
    have hread := readOperand?_encode_load before index after
    simp only [Instr.opcode, executeAt, hread, step]
  | apply op => rfl

/-- **The run at an encoded instruction** logs it, executes it and goes on behind it. -/
theorem runFrom_encode (before : List UInt8) (i : Instr) (after : List UInt8) (pool : Array Value)
    (stack : OperandStack) (events : Array RunEvent) :
    runFrom (before ++ (i.encode ++ after)).toArray pool before.length stack events
      = match step pool stack i with
        | .next stack' =>
          runFrom (before ++ (i.encode ++ after)).toArray pool (before.length + i.size) stack'
            (events.push (.exec before.length i.opcode stack.height))
        | .fault e stack' =>
          (.fault e stack', events.push (.exec before.length i.opcode stack.height)) := by
  obtain ⟨hinside, hop⟩ := exists_ofByte_encode before i after
  rw [runFrom, dif_pos hinside]
  simp only [hop, executeAt_encode]
  cases step pool stack i <;> rfl

/-- **The run at stuck bytes** ends there. -/
theorem runFrom_of_stuck {before tail : List UInt8} {stop : Stop}
    (h : Stuck tail before.length stop) (pool : Array Value) (stack : OperandStack)
    (events : Array RunEvent) :
    runFrom (before ++ tail).toArray pool before.length stack events
      = finish stack events stop := by
  cases h with
  | done =>
    rw [runFrom, dif_neg (by simp)]
    rfl
  | unknownOpcode hnone rest =>
    rw [runFrom, dif_pos (length_lt_size_toArray _ _ _)]
    simp only [getElem_toArray_length, Opcode.ofByte_of_eq_none hnone]
    rfl
  | truncated hshort =>
    rw [runFrom, dif_pos (length_lt_size_toArray _ _ _)]
    simp only [getElem_toArray_length, Opcode.ofByte_byte, executeAt,
      readOperand?_of_short before hshort]
    rfl

/-- The run of instructions and the stuck bytes behind them. -/
theorem runFrom_encodeAll (before : List UInt8) {tail : List UInt8} {instrs : List Instr}
    {stop : Stop} (h : Stuck tail (before.length + (encodeAll instrs).length) stop)
    (pool : Array Value) (stack : OperandStack) (events : Array RunEvent) :
    runFrom (before ++ (encodeAll instrs ++ tail)).toArray pool before.length stack events
      = execute pool stop stack events (locateFrom before.length #[] instrs) := by
  induction instrs generalizing before stack events with
  | nil => exact runFrom_of_stuck h pool stack events
  | cons i rest ih =>
    rw [encodeAll_cons, List.append_assoc, runFrom_encode, locateFrom_cons, execute]
    cases step pool stack i with
    | fault e stack' => rfl
    | next stack' =>
      have hrest := ih _ h.behind stack' (events.push (.exec before.length i.opcode stack.height))
      rw [List.append_assoc, List.length_append, i.length_encode] at hrest
      exact hrest

/-- **The run is that of the decoded stream.** -/
theorem runFrom_eq_execute (code : List UInt8) (pool : Array Value) (stack : OperandStack)
    (events : Array RunEvent) :
    runFrom code.toArray pool 0 stack events
      = execute pool (decode code).stop stack events (decode code).instrs := by
  obtain ⟨instrs, tail, hcode, hstuck, hdecode⟩ := exists_encodeAll_append_stuck code
  have hrun := runFrom_encodeAll [] (by simpa using hstuck) pool stack events
  rw [List.nil_append, ← hcode] at hrun
  rw [hdecode]
  exact hrun

end StackMachine
