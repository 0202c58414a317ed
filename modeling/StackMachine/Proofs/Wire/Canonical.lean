import StackMachine.Proofs.Wire.Grammar

/-! # Canonical encodings

A unit has many encodings, which differ in the forms of their lengths and tags. Writing gives the
one in which every form is minimal; it is the shortest encoding, and reading any encoding leads back
to it.

* **`CodeUnit.Addressable`** — all lengths of a unit are 64-bit numbers; only such a unit has an
  encoding.
* **`Canonical grammar fits write`** — what `write` gives is the only word of a grammar with minimal
  forms, and no word is shorter.
* **`canonical_toWire`** — units are written canonically. -/

namespace StackMachine

/-! ## Lengths -/

/-- Whether the length of a text is a 64-bit number. -/
def Value.Addressable : Value → Prop
  | .text s => (Wire.textBytes s).length < UInt64.size
  | _ => True

/-- **An addressable unit**: the length of its code, the number of its constants and the lengths of
its texts are 64-bit numbers, as they are for everything that fits in memory. -/
structure CodeUnit.Addressable (u : CodeUnit) : Prop where
  /-- The length of the code. -/
  code : u.code.length < UInt64.size
  /-- The number of the constants. -/
  pool : u.pool.size < UInt64.size
  /-- The lengths of the texts. -/
  values : ∀ v ∈ u.pool.toList, v.Addressable

namespace Wire

/-! ## Tags and contents of written constants -/

/-- The tag of a constant. -/
def tagOf : Value → Nat
  | .number _ => 0
  | .text _ => 1
  | .boolean _ => 2
  | .null => 3

/-- What is written behind the tag of a constant. -/
def writeContent : Value → List UInt8
  | .number x => (bigEndian 8 x.bits.toNat).reverse
  | .text s => writeBlob (textBytes s)
  | .boolean b => [if b then 1 else 0]
  | .null => []

/-- A constant is written as its tag and its content. -/
theorem writeValue_eq (v : Value) : writeValue v = writeVarint (tagOf v) ++ writeContent v := by
  cases v <;> simp [writeValue, tagOf, writeContent]

/-- The tag of a constant is written in a form that is read as a tag. -/
theorem isTag_writeVarint_tagOf (v : Value) : IsTag (tagOf v) (writeVarint (tagOf v)) := by
  refine isNumeral_writeVarint (by decide) ?_
  cases v <;> simp [tagOf]

/-- A content belongs to the tag of its constant. -/
theorem EncodesContent.tag_eq {allowed : List UInt8 → Prop} {n : Nat} {v : Value}
    {word : List UInt8} (h : EncodesContent allowed n v word) : n = tagOf v := by
  cases h <;> rfl

/-! ## Canonical words -/

/-- **Canonical writing** of the values that fit: what is written is a word with minimal forms,
there is no other one, and no word at all is shorter. -/
structure Canonical {α : Type} (grammar : (List UInt8 → Prop) → α → List UInt8 → Prop)
    (fits : α → Prop) (write : α → List UInt8) : Prop where
  /-- Minimal forms are forms. -/
  weaken : ∀ {a word}, grammar IsMinimal a word → grammar (fun _ => True) a word
  /-- Only values that fit have a word. -/
  fits_of_word : ∀ {a word}, grammar (fun _ => True) a word → fits a
  /-- What is written is a word with minimal forms. -/
  minimal_write : ∀ {a}, fits a → grammar IsMinimal a (write a)
  /-- There is no other word with minimal forms. -/
  eq_write : ∀ {a word}, grammar IsMinimal a word → word = write a
  /-- No word is shorter. -/
  length_write_le : ∀ {a word}, grammar (fun _ => True) a word → (write a).length ≤ word.length

/-- The written form of a number is minimal. -/
theorem isMinimal_writeVarint (n : Nat) : IsMinimal (writeVarint n) :=
  (isForm_writeVarint n).isMinimal_iff.mpr rfl

/-- A minimal form within a limit is the written one. -/
theorem IsNumeral.eq_writeVarint {limit lastMax n : Nat} {form : List UInt8}
    (h : IsNumeral limit lastMax n form) (hminimal : IsMinimal form) : form = writeVarint n :=
  h.isForm.isMinimal_iff.mp hminimal

/-- Byte sequences behind their length are written canonically. -/
theorem canonical_writeBlob :
    Canonical EncodesBlob (fun content => content.length < UInt64.size) writeBlob where
  weaken := by
    rintro content _ ⟨hlength, -⟩
    exact .intro hlength trivial
  fits_of_word := by
    rintro content _ ⟨hlength, -⟩
    exact hlength.lt
  minimal_write := by
    intro content hfits
    exact .intro (isLength_writeVarint hfits) (isMinimal_writeVarint _)
  eq_write := by
    rintro content _ ⟨hlength, hminimal⟩
    rw [IsNumeral.eq_writeVarint hlength hminimal, writeBlob]
  length_write_le := by
    rintro content _ ⟨hlength, -⟩
    rw [writeBlob, List.length_append, List.length_append]
    exact Nat.add_le_add_right hlength.isForm.length_writeVarint_le _

/-- The eight bytes of a word are those that spell it. -/
theorem eq_reverse_bigEndian_iff (x : Binary64) (field : List UInt8) :
    field = (bigEndian 8 x.bits.toNat).reverse ↔
      field.length = 8 ∧ x.bits.toNat = littleEndian field := by
  have hword : x.bits.toNat % Nat.pow 256 8 = x.bits.toNat := Nat.mod_eq_of_lt x.bits.toNat_lt_size
  constructor
  · rintro rfl
    refine ⟨by rw [List.length_reverse, length_bigEndian], ?_⟩
    rw [← ofBigEndian_reverse, List.reverse_reverse, ofBigEndian_bigEndian, hword]
  · rintro ⟨hlength, hfield⟩
    rw [← List.reverse_eq_iff]
    refine ofBigEndian_inj (by rw [List.length_reverse, length_bigEndian, hlength]) ?_
    rw [ofBigEndian_reverse, ofBigEndian_bigEndian, hword, hfield]

/-- The contents of constants are written canonically. -/
theorem canonical_writeContent (n : Nat) :
    Canonical (fun allowed => EncodesContent allowed n) (fun v => tagOf v = n ∧ v.Addressable)
      writeContent where
  weaken := by
    intro v word h
    cases h with
    | number hlength hword => exact .number hlength hword
    | text hblob => exact .text (canonical_writeBlob.weaken hblob)
    | false => exact .false
    | true => exact .true
    | null => exact .null
  fits_of_word := by
    intro v word h
    cases h with
    | text hblob => exact ⟨rfl, canonical_writeBlob.fits_of_word hblob⟩
    | _ => exact ⟨rfl, trivial⟩
  minimal_write := by
    rintro v ⟨rfl, hfits⟩
    cases v with
    | number x =>
      obtain ⟨hlength, hword⟩ := (eq_reverse_bigEndian_iff x _).mp rfl
      exact .number hlength hword
    | text s => exact .text (canonical_writeBlob.minimal_write hfits)
    | boolean b =>
      cases b with
      | false => exact .false
      | true => exact .true
    | null => exact .null
  eq_write := by
    intro v word h
    cases h with
    | number hlength hword => exact (eq_reverse_bigEndian_iff _ _).mpr ⟨hlength, hword⟩
    | text hblob => exact canonical_writeBlob.eq_write hblob
    | _ => rfl
  length_write_le := by
    intro v word h
    cases h with
    | number hlength hword =>
      have hwritten := (eq_reverse_bigEndian_iff _ _).mpr ⟨hlength, hword⟩
      exact Nat.le_of_eq (congrArg List.length hwritten.symm)
    | text hblob => exact canonical_writeBlob.length_write_le hblob
    | _ => exact Nat.le_refl _

/-- Constants are written canonically. -/
theorem canonical_writeValue : Canonical EncodesValue Value.Addressable writeValue where
  weaken := by
    rintro v _ ⟨htag, -, hcontent⟩
    exact .intro htag trivial ((canonical_writeContent _).weaken hcontent)
  fits_of_word := by
    rintro v _ ⟨-, -, hcontent⟩
    exact ((canonical_writeContent _).fits_of_word hcontent).2
  minimal_write := by
    intro v hfits
    rw [writeValue_eq]
    exact .intro (isTag_writeVarint_tagOf v) (isMinimal_writeVarint _)
      ((canonical_writeContent _).minimal_write ⟨rfl, hfits⟩)
  eq_write := by
    rintro v _ ⟨htag, hminimal, hcontent⟩
    rw [writeValue_eq, IsNumeral.eq_writeVarint htag hminimal, hcontent.tag_eq,
      (canonical_writeContent _).eq_write hcontent]
  length_write_le := by
    rintro v _ ⟨htag, -, hcontent⟩
    have hlength := (canonical_writeContent _).length_write_le hcontent
    rw [writeValue_eq, List.length_append, List.length_append, ← hcontent.tag_eq]
    exact Nat.add_le_add htag.isForm.length_writeVarint_le hlength

/-- Constants one after the other are written canonically. -/
theorem canonical_writeValues :
    Canonical EncodesValues (fun values => ∀ v ∈ values, v.Addressable)
      (List.flatMap writeValue) where
  weaken := by
    intro values word h
    induction h with
    | nil => exact .nil
    | cons hfirst hrest ih => exact .cons (canonical_writeValue.weaken hfirst) ih
  fits_of_word := by
    intro values word h
    induction h with
    | nil => simp
    | cons hfirst hrest ih =>
      exact List.forall_mem_cons.mpr ⟨canonical_writeValue.fits_of_word hfirst, ih⟩
  minimal_write := by
    intro values hfits
    induction values with
    | nil => exact .nil
    | cons v rest ih =>
      obtain ⟨hfirst, hrest⟩ := List.forall_mem_cons.mp hfits
      rw [List.flatMap_cons]
      exact .cons (canonical_writeValue.minimal_write hfirst) (ih hrest)
  eq_write := by
    intro values word h
    induction h with
    | nil => rfl
    | cons hfirst hrest ih => rw [List.flatMap_cons, canonical_writeValue.eq_write hfirst, ih]
  length_write_le := by
    intro values word h
    induction h with
    | nil => exact Nat.le_refl _
    | cons hfirst hrest ih =>
      rw [List.flatMap_cons, List.length_append, List.length_append]
      exact Nat.add_le_add (canonical_writeValue.length_write_le hfirst) ih

/-- **Units are written canonically.** -/
theorem canonical_toWire : Canonical EncodesUnit CodeUnit.Addressable CodeUnit.toWire where
  weaken := by
    rintro u _ ⟨hcode, hcount, -, hvalues⟩
    exact .intro (canonical_writeBlob.weaken hcode) hcount trivial
      (canonical_writeValues.weaken hvalues)
  fits_of_word := by
    rintro u _ ⟨hcode, hcount, -, hvalues⟩
    exact ⟨canonical_writeBlob.fits_of_word hcode, hcount.lt,
      canonical_writeValues.fits_of_word hvalues⟩
  minimal_write := by
    intro u hfits
    exact .intro (canonical_writeBlob.minimal_write hfits.code) (isLength_writeVarint hfits.pool)
      (isMinimal_writeVarint _) (canonical_writeValues.minimal_write hfits.values)
  eq_write := by
    rintro u _ ⟨hcode, hcount, hminimal, hvalues⟩
    rw [canonical_writeBlob.eq_write hcode, IsNumeral.eq_writeVarint hcount hminimal,
      canonical_writeValues.eq_write hvalues, CodeUnit.toWire]
  length_write_le := by
    rintro u _ ⟨hcode, hcount, -, hvalues⟩
    have hblob := canonical_writeBlob.length_write_le hcode
    have hlength := hcount.isForm.length_writeVarint_le
    have hrest := canonical_writeValues.length_write_le hvalues
    simp only [CodeUnit.toWire, List.length_append]
    omega

end Wire

end StackMachine
