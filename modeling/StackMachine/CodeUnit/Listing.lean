import StackMachine.CodeUnit.Basic

/-! # Listings

* **`listFrom`** goes through the bytes of some code, from one instruction to the offset behind its
  last operand.
* **`listCode`** lists the instructions of a byte sequence, one line each, or names what cannot be
  decoded.
* **`listPool`** lists the numbers and texts of a pool with their indexes.
* **`CodeUnit.listing`** lists a unit, and **`Listing.text`** puts its two parts together. -/

namespace StackMachine

/-- Joins lines with line breaks between them. -/
def joinLines (lines : List String) : String := "\n".intercalate lines

/-- Appends the operands that stand from an offset on, in the given widths, to a line, each behind a
blank. Tells also the offset behind the last one; there is none when the bytes end inside an
operand. -/
def appendOperands? (bytes : Array UInt8) :
    (widths : List Nat) → (offset : Nat) → (line : String) → Option (String × Nat)
  | [], offset, line => some (line, offset)
  | width :: widths, offset, line =>
    match readOperand? bytes offset width with
    | none => none
    | some operand =>
      appendOperands? bytes widths (offset + width) (line ++ " " ++ toString operand)

/-- Operands end behind the place where they start. -/
theorem le_of_appendOperands? {bytes : Array UInt8} {widths : List Nat} {offset stop : Nat}
    {line line' : String} (h : appendOperands? bytes widths offset line = some (line', stop)) :
    offset ≤ stop := by
  induction widths generalizing offset line with
  | nil =>
    cases h
    exact Nat.le_refl _
  | cons width widths ih =>
    rw [appendOperands?] at h
    cases hread : readOperand? bytes offset width with
    | none => simp [hread] at h
    | some operand =>
      simp only [hread] at h
      exact Nat.le_trans (Nat.le_add_right _ _) (ih h)

/-- **Lists the instructions from an offset on**, behind the lines so far. The next instruction
starts where the operands of the last one end. -/
def listFrom (bytes : Array UInt8) (offset : Nat) (lines : Array String) :
    Except InstrError (Array String) :=
  if hinside : offset < bytes.size then
    match Opcode.ofByte bytes[offset] with
    | .error e => .error e
    | .ok op =>
      match hline : appendOperands? bytes op.layout.widths (offset + 1) op.mnemonic with
      | none => .error (.truncated op offset)
      | some (line, stop) => listFrom bytes stop (lines.push line)
  else .ok lines
termination_by bytes.size - offset
decreasing_by
  have hstop := le_of_appendOperands? hline
  omega

/-- The **instruction listing** of a byte sequence. -/
def listCode (code : List UInt8) : Except InstrError String :=
  (listFrom code.toArray 0 #[]).map fun lines => joinLines lines.toList

/-- The line of a pool entry, with its index; truth values and null have none. Texts stand as they
are. -/
def poolLine? (index : Nat) : Value → Option String
  | .number x => some s!"{index}: {Kind.number.name}({Numeral.print x})"
  | .text s => some s!"{index}: {Kind.text.name}({s})"
  | .boolean _ => none
  | .null => none

/-- The **pool listing**. -/
def listPool (pool : Array Value) : String :=
  joinLines (pool.toList.zipIdx.filterMap fun entry => poolLine? entry.2 entry.1)

/-- The **listing** of a unit. -/
structure Listing where
  /-- The instructions, or what keeps them from being listed. -/
  code : Except InstrError String
  /-- The constants. -/
  pool : String

/-- The full text of a listing: the constants first, then the instructions. -/
def Listing.text (l : Listing) : Except InstrError String :=
  l.code.map fun code => "Constants:\n" ++ l.pool ++ "\n\nBytecode:\n" ++ code

/-- Lists a unit. -/
def CodeUnit.listing (u : CodeUnit) : Listing := ⟨listCode u.code, listPool u.pool⟩

end StackMachine
