import StackMachine.Numeral.Reader
import StackMachine.Proofs.Code.Passes

/-! # Reading a listing back

A listing has one line for each instruction, and the line shows all of it: the mnemonic and the
operands in decimal. So the bytes can be recovered from the text. The listing of some code is cut
into lines and the lines into words, each line is read as an opcode with operands, and these are
encoded again.

* **`listCode_encodeAll`** and **`exists_encodeAll_of_listCode`** — the code that can be listed is
  the encoding of instructions, and its listing consists of their lines.
* **`RawInstr`** — an opcode with operands, before anything is checked.
* **`readListing?`** — the raw instructions that a text shows; `readListing?_joinLines` reads the
  lines of instructions.
* **`listCode_faithful`** — the bytes of a listing. -/

namespace StackMachine

/-! ## Listings of encoded instructions -/

/-- Bytes that are decoded to the end are an encoding. -/
theorem exists_encodeAll_of_stop_eq_done {code : List UInt8} (h : (decode code).stop = .done) :
    ∃ instrs, code = encodeAll instrs := by
  obtain ⟨instrs, tail, hcode, hstuck, -⟩ := exists_encodeAll_append_stuck code
  rw [h] at hstuck
  cases hstuck
  exact ⟨instrs, by rw [hcode, List.append_nil]⟩

/-- Code that can be listed is decoded to the end. -/
theorem stop_eq_done_of_listCode {code : List UInt8} {text : String}
    (h : listCode code = .ok text) : (decode code).stop = .done := by
  rw [listCode_eq_lines, Decoded.lines] at h
  cases hstop : (decode code).stop with
  | done => rfl
  | unknownOpcode byte offset => simp [hstop, Stop.error?, Except.map] at h
  | truncated op offset => simp [hstop, Stop.error?, Except.map] at h

/-- Code cannot be listed exactly when decoding stops short, and the error is that of the stop. -/
theorem listCode_eq_error_iff {code : List UInt8} {e : InstrError} :
    listCode code = .error e ↔ (decode code).stop.error? = some e := by
  rw [listCode_eq_lines, Decoded.lines]
  cases (decode code).stop.error? with
  | none => simp [Except.map]
  | some cause => simp [Except.map]

/-- The lines of encoded instructions. -/
theorem lines_decode_encodeAll (instrs : List Instr) :
    (decode (encodeAll instrs)).lines = .ok (instrs.map Instr.line) := by
  rw [decode_encodeAll, Decoded.lines]
  simp only [Stop.error?, map_locate Instr.line]

/-- **The listing of encoded instructions** has a line for each of them. -/
theorem listCode_encodeAll (instrs : List Instr) :
    listCode (encodeAll instrs) = .ok (joinLines (instrs.map Instr.line)) := by
  rw [listCode_eq_lines, lines_decode_encodeAll]
  rfl

/-- **Code that can be listed** is the encoding of instructions, whose lines are the listing. -/
theorem exists_encodeAll_of_listCode {code : List UInt8} {text : String}
    (h : listCode code = .ok text) :
    ∃ instrs, code = encodeAll instrs ∧ text = joinLines (instrs.map Instr.line) := by
  obtain ⟨instrs, rfl⟩ := exists_encodeAll_of_stop_eq_done (stop_eq_done_of_listCode h)
  rw [listCode_encodeAll] at h
  exact ⟨instrs, rfl, (Except.ok.inj h).symm⟩

/-! ## Raw instructions -/

/-- A **raw instruction**: an opcode with operands, which need not go with it. -/
structure RawInstr where
  /-- The opcode. -/
  op : Opcode
  /-- The operands, in order. -/
  operands : List Nat
deriving DecidableEq

/-- The raw form of an instruction. -/
def Instr.raw (i : Instr) : RawInstr := ⟨i.opcode, i.operands⟩

/-- The line that shows a raw instruction: the mnemonic of its opcode and its operands in
decimal. -/
def RawInstr.line (r : RawInstr) : String :=
  " ".intercalate (r.op.mnemonic :: r.operands.map fun operand => toString operand)

/-- The bytes of a raw instruction, or what is wrong with it. -/
def RawInstr.encode (r : RawInstr) : Except InstrError (List UInt8) :=
  (Instr.ofOperands r.op r.operands).map Instr.encode

/-- The raw form of an instruction is encoded as the instruction. -/
theorem RawInstr.encode_raw (i : Instr) : i.raw.encode = .ok i.encode := by
  rw [RawInstr.encode, Instr.raw, Instr.ofOperands_operands]
  rfl

/-- The raw forms of instructions are encoded one by one. -/
theorem RawInstr.mapM_encode_raw (instrs : List Instr) :
    (instrs.map Instr.raw).mapM RawInstr.encode = .ok (instrs.map Instr.encode) := by
  have hencode : RawInstr.encode ∘ Instr.raw = fun i => pure i.encode := funext RawInstr.encode_raw
  rw [List.mapM_map, hencode, List.mapM_pure]
  rfl

/-! ## Reading lines -/

/-- Reads a whole word as a number in decimal digits. -/
def readDigits? (word : List Char) : Option Nat :=
  if !word.isEmpty && word.all Char.isDigit then some (Numeral.ofDigits word) else none

/-- Reads a line as a mnemonic and operands, with single blanks between them. -/
def readLine? (line : List Char) : Option RawInstr :=
  match line.splitOn ' ' with
  | [] => none
  | mnemonic :: words => do
    let op ← Opcode.ofMnemonic? (String.ofList mnemonic)
    let operands ← words.mapM readDigits?
    return ⟨op, operands⟩

/-- **Reads a listing**: each line is an instruction, and no text at all is the listing of none. -/
def readListing? (text : String) : Option (List RawInstr) :=
  if text = "" then some [] else (text.toList.splitOn '\n').mapM readLine?

/-- The digits of a number are read as the number. -/
theorem readDigits?_toDigits (n : Nat) : readDigits? (Nat.toDigits 10 n) = some n := by
  have hnonempty : (Nat.toDigits 10 n).isEmpty = false :=
    List.isEmpty_eq_false_iff.mpr Nat.toDigits_ne_nil
  have hdigits : (Nat.toDigits 10 n).all Char.isDigit = true :=
    List.all_eq_true.mpr fun c hc => Nat.isDigit_of_mem_toDigits (by decide) (by decide) hc
  have hvalue : Numeral.ofDigits (Nat.toDigits 10 n) = n := Nat.ofDigitChars_ten_toDigits
  rw [readDigits?, hnonempty, hdigits, hvalue]
  rfl

/-- Every opcode is recognised by its mnemonic. -/
theorem Opcode.ofMnemonic?_mnemonic (op : Opcode) : Opcode.ofMnemonic? op.mnemonic = some op := by
  rcases op with _ | (_ | _ | _ | _) <;> decide

/-- The words of a line: the mnemonic and the digits of the operands. -/
def Instr.words (i : Instr) : List (List Char) :=
  i.opcode.mnemonic.toList :: i.operands.map (Nat.toDigits 10)

/-- A line consists of its words, with blanks between them. -/
theorem Instr.toList_line (i : Instr) : i.line.toList = [' '].intercalate i.words := by
  rw [Instr.line, String.toList_intercalate, List.map_cons, List.map_map, Instr.words]
  congr 3
  funext operand
  exact Nat.toList_repr

/-- A mnemonic consists of letters. -/
theorem Opcode.isAlpha_of_mem_mnemonic {op : Opcode} {c : Char} (hc : c ∈ op.mnemonic.toList) :
    c.isAlpha = true := by
  have hletters : op.mnemonic.toList.all Char.isAlpha = true := by
    rcases op with _ | (_ | _ | _ | _) <;> decide
  exact List.all_eq_true.mp hletters c hc

/-- A word consists of letters or of digits. -/
theorem Instr.isAlphanum_of_mem_words {i : Instr} {word : List Char} (hword : word ∈ i.words)
    {c : Char} (hc : c ∈ word) : c.isAlphanum = true := by
  rw [Instr.words, List.mem_cons] at hword
  rcases hword with rfl | hoperand
  · rw [Char.isAlphanum, Opcode.isAlpha_of_mem_mnemonic hc, Bool.true_or]
  · obtain ⟨operand, -, rfl⟩ := List.mem_map.mp hoperand
    have hdigit : c.isDigit = true := Nat.isDigit_of_mem_toDigits (by decide) (by decide) hc
    rw [Char.isAlphanum, hdigit, Bool.or_true]

/-- The line of an instruction is cut into its words. -/
theorem Instr.splitOn_line (i : Instr) : i.line.toList.splitOn ' ' = i.words := by
  rw [Instr.toList_line]
  refine List.splitOn_intercalate ' ' ?_ (List.cons_ne_nil _ _)
  intro word hword hblank
  exact absurd (Instr.isAlphanum_of_mem_words hword hblank) (by decide)

/-- **The line of an instruction is read as the instruction.** -/
theorem readLine?_line (i : Instr) : readLine? i.line.toList = some i.raw := by
  have hdigits : readDigits? ∘ Nat.toDigits 10 = fun operand => pure operand :=
    funext readDigits?_toDigits
  have hoperands : (i.operands.map (Nat.toDigits 10)).mapM readDigits? = some i.operands := by
    rw [List.mapM_map, hdigits, List.mapM_pure, List.map_id']
    rfl
  rw [readLine?, Instr.splitOn_line, Instr.words]
  simp only [String.ofList_toList, Opcode.ofMnemonic?_mnemonic, hoperands]
  rfl

/-- A line is not empty. -/
theorem Instr.line_ne_empty (i : Instr) : i.line ≠ "" := by
  intro hempty
  have hread := readLine?_line i
  rw [hempty] at hread
  cases hread

/-! ## Reading lines one below the other -/

/-- What stands in words with a separator between them is the separator or stands in a word. -/
theorem mem_intercalate_singleton {separator c : Char} {words : List (List Char)}
    (h : c ∈ [separator].intercalate words) : c = separator ∨ ∃ word ∈ words, c ∈ word := by
  induction words with
  | nil => simp at h
  | cons word rest ih =>
    cases rest with
    | nil => exact Or.inr ⟨word, List.mem_cons_self, by simpa using h⟩
    | cons next rest =>
      rw [List.intercalate_cons_cons, List.mem_append, List.mem_append, List.mem_singleton] at h
      rcases h with (hword | hseparator) | hrest
      · exact Or.inr ⟨word, List.mem_cons_self, hword⟩
      · exact Or.inl hseparator
      · exact (ih hrest).imp_right fun ⟨found, hfound, hc⟩ =>
          ⟨found, List.mem_cons_of_mem _ hfound, hc⟩

/-- There is no line break in a line. -/
theorem Instr.newline_not_mem_line (i : Instr) : '\n' ∉ i.line.toList := by
  intro hbreak
  rw [Instr.toList_line] at hbreak
  rcases mem_intercalate_singleton hbreak with hblank | ⟨word, hword, hc⟩
  · exact absurd hblank (by decide)
  · exact absurd (Instr.isAlphanum_of_mem_words hword hc) (by decide)

/-- Only the listing of no instructions is empty. -/
theorem joinLines_eq_empty_iff (instrs : List Instr) :
    joinLines (instrs.map Instr.line) = "" ↔ instrs = [] := by
  match instrs with
  | [] => exact iff_of_true String.intercalate_nil rfl
  | [i] =>
    refine iff_of_false ?_ (List.cons_ne_nil _ _)
    rw [joinLines, List.map_singleton, String.intercalate_singleton]
    exact i.line_ne_empty
  | i :: next :: rest =>
    refine iff_of_false ?_ (List.cons_ne_nil _ _)
    rw [joinLines, List.map_cons, List.map_cons, String.intercalate_cons_cons]
    intro hempty
    exact i.line_ne_empty (String.append_eq_empty_iff.mp (String.append_eq_empty_iff.mp hempty).1).1

/-- **The lines of instructions are read as the instructions.** -/
theorem readListing?_joinLines (instrs : List Instr) :
    readListing? (joinLines (instrs.map Instr.line)) = some (instrs.map Instr.raw) := by
  by_cases hnil : instrs = []
  · rw [hnil]
    rfl
  · have hlines : (joinLines (instrs.map Instr.line)).toList.splitOn '\n'
        = instrs.map fun i => i.line.toList := by
      rw [joinLines, String.toList_intercalate, List.map_map]
      refine List.splitOn_intercalate '\n' ?_ (mt List.map_eq_nil_iff.mp hnil)
      intro line hline
      obtain ⟨i, -, rfl⟩ := List.mem_map.mp hline
      exact i.newline_not_mem_line
    have hread : (readLine? ∘ fun i : Instr => i.line.toList) = fun i => pure i.raw :=
      funext readLine?_line
    rw [readListing?, if_neg (mt (joinLines_eq_empty_iff instrs).mp hnil), hlines, List.mapM_map,
      hread, List.mapM_pure]
    rfl

/-! ## The bytes of a listing -/

/-- **A listing shows all of the code**: the raw instructions on its lines have the bytes of the
code. -/
theorem exists_readListing?_of_listCode {code : List UInt8} {text : String}
    (h : listCode code = .ok text) :
    ∃ raws chunks, readListing? text = some raws ∧ raws.mapM RawInstr.encode = .ok chunks ∧
      code = chunks.flatten := by
  obtain ⟨instrs, rfl, rfl⟩ := exists_encodeAll_of_listCode h
  exact ⟨_, _, readListing?_joinLines instrs, RawInstr.mapM_encode_raw instrs, List.flatMap_def⟩

/-- **Listings are faithful.** The lines of a listing are read as opcodes with operands, and the
encodings of these, one after the other, are exactly the bytes that are listed. So no two byte
sequences have the same listing, and only the empty one has the empty listing. -/
theorem listCode_faithful :
    (∀ code text, listCode code = .ok text →
      ∃ raws chunks, readListing? text = some raws ∧ raws.mapM RawInstr.encode = .ok chunks ∧
        code = chunks.flatten) ∧
    (∀ code code' text, listCode code = .ok text → listCode code' = .ok text → code = code') ∧
    ∀ code, listCode code = .ok "" ↔ code = [] := by
  refine ⟨?_, ?_, ?_⟩
  · intro code text h
    exact exists_readListing?_of_listCode h
  · intro code code' text h h'
    -- both are the bytes of what the one text shows
    obtain ⟨raws, chunks, hraws, hchunks, rfl⟩ := exists_readListing?_of_listCode h
    obtain ⟨raws', chunks', hraws', hchunks', rfl⟩ := exists_readListing?_of_listCode h'
    rw [hraws] at hraws'
    cases hraws'
    rw [hchunks] at hchunks'
    cases hchunks'
    rfl
  · intro code
    constructor
    · intro h
      obtain ⟨instrs, rfl, htext⟩ := exists_encodeAll_of_listCode h
      rw [(joinLines_eq_empty_iff instrs).mp htext.symm]
      rfl
    · rintro rfl
      exact listCode_eq_lines []

/-- The listing of a wide operand and an operation is read back to their bytes. -/
theorem listCode_faithful_wide_operand :
    listCode [0x01, 0x01, 0x2c, 0x12] = .ok "Constant 300\nDivide" ∧
      ∃ raws chunks, readListing? "Constant 300\nDivide" = some raws ∧
        raws.mapM RawInstr.encode = .ok chunks ∧ [0x01, 0x01, 0x2c, 0x12] = chunks.flatten := by
  have hlist : listCode [0x01, 0x01, 0x2c, 0x12] = .ok "Constant 300\nDivide" := by
    rw [listCode_eq_lines]
    rfl
  exact ⟨hlist, listCode_faithful.1 _ _ hlist⟩

end StackMachine
