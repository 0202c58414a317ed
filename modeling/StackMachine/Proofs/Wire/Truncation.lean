import StackMachine.Proofs.Wire.RoundTrip

/-! # Data that end too early

Every reader of the wire looks at the bytes in order and asks for the next ones before it judges
those it has. So when the data end inside what it would have taken, this is what it reports: not a
number without end, not a text that is no UTF-8, and not a shorter value.

* **`NeedsAll read`** — on every strict beginning of what `read` takes, it reports the end of the
  data.
* **`NeedsAll.andThen`** — two such readers one after the other are such a reader.
* **`needsAll_readUnit`** — the reader of units is one.
* **`ofWire_truncated`** — a unit that is cut short anywhere is reported as cut short. -/

namespace StackMachine

namespace Wire

/-! ## Readers that need all they take -/

/-- **A reader that needs all it takes**: if it takes a word off the front, it reports the end of
the data on everything that is less than the word. -/
def NeedsAll {α : Type} (read : List UInt8 → Read α) : Prop :=
  ∀ word rest a, read (word ++ rest) = .ok (a, rest) → ∀ p, p <+: word → p ≠ word →
    read p = .error .endOfData

/-- What a reader takes is a word of its grammar. -/
theorem Recognises.grammar_of_read {α : Type} {read : List UInt8 → Read α}
    {grammar : α → List UInt8 → Prop} (h : Recognises read grammar) {word rest : List UInt8} {a : α}
    (hread : read (word ++ rest) = .ok (a, rest)) :
    grammar a word := by
  obtain ⟨word', hword, heq⟩ := (h _ _ _).mp hread
  rwa [List.append_cancel_right heq]

/-- **A beginning of a concatenation** is a strict beginning of its first part, or the first part
and a beginning of the second. -/
theorem prefix_append_cases {p first second : List UInt8} (h : p <+: first ++ second) :
    (p <+: first ∧ p ≠ first) ∨ ∃ q, q <+: second ∧ p = first ++ q := by
  rcases List.prefix_or_prefix_of_prefix h (List.prefix_append first second) with hshort | ⟨q, rfl⟩
  · by_cases heq : p = first
    · exact Or.inr ⟨[], List.nil_prefix, by rw [heq, List.append_nil]⟩
    · exact Or.inl ⟨hshort, heq⟩
  · exact Or.inr ⟨q, (List.prefix_append_right_inj first).mp h, rfl⟩

/-- A strict beginning is shorter. -/
theorem length_lt_of_prefix {p word : List UInt8} (h : p <+: word) (hne : p ≠ word) :
    p.length < word.length :=
  Nat.lt_of_le_of_ne h.length_le fun heq => hne (h.eq_of_length heq)

/-- A reader that takes nothing needs nothing more. -/
theorem NeedsAll.of_takes_nothing {α : Type} {read : List UInt8 → Read α}
    {grammar : α → List UInt8 → Prop} (h : Recognises read grammar)
    (hnil : ∀ a word, grammar a word → word = []) :
    NeedsAll read := by
  intro word rest a hread p hp hne
  obtain rfl := hnil a word (h.grammar_of_read hread)
  exact absurd (List.prefix_nil.mp hp) hne

/-- Two readers one after the other **need all they take** if each of them does. -/
theorem NeedsAll.andThen {α β : Type} {first : List UInt8 → Read α} {next : α → List UInt8 → Read β}
    {front : α → List UInt8 → Prop} {back : α → β → List UInt8 → Prop} (hfirst : NeedsAll first)
    (hnext : ∀ a, NeedsAll (next a)) (hfront : Recognises first front)
    (hback : ∀ a, Recognises (next a) (back a)) :
    NeedsAll fun bytes => Wire.andThen (first bytes) next := by
  intro word rest b hread p hp hne
  -- the word is one of the first reader followed by one of the second
  obtain ⟨a, word₁, word₂, hword₁, hword₂, rfl⟩ := (hfront.andThen hback).grammar_of_read hread
  rcases prefix_append_cases hp with ⟨hshort, hne₁⟩ | ⟨q, hq, rfl⟩
  · -- the data end inside the first word
    have hcut := hfirst word₁ [] a (hfront.read_append hword₁ []) p hshort hne₁
    simp only [hcut, Wire.andThen]
  · -- the first word is complete, and the data end inside the second
    have hne₂ : q ≠ word₂ := fun heq => hne (by rw [heq])
    have hcut := hnext a word₂ [] b ((hback a).read_append hword₂ []) q hq hne₂
    simp only [hfront.read_append hword₁ q, Wire.andThen, hcut]

/-- A reader whose values are converted needs what it needed before. -/
theorem NeedsAll.map {α β : Type} {read : List UInt8 → Read α} {grammar : α → List UInt8 → Prop}
    (h : NeedsAll read) (hgrammar : Recognises read grammar) (convert : α → β) :
    NeedsAll fun bytes => Wire.andThen (read bytes) fun a rest => .ok (convert a, rest) :=
  h.andThen (fun a => .of_takes_nothing (recognises_ok (convert a)) fun _ _ hword => hword.2)
    hgrammar fun a => recognises_ok (convert a)

/-! ## The readers of the wire -/

/-- The data end inside a form: every byte before the last one asks for another. -/
theorem readVarint_of_prefix {lastMax more n : Nat} {form p : List UInt8} (h : IsForm n form)
    (hlength : form.length ≤ more + 1) (hp : p <+: form) (hne : p ≠ form) :
    readVarint lastMax more p = .error .endOfData := by
  induction h generalizing more p with
  | last hbyte =>
    cases p with
    | nil => rw [readVarint]
    | cons byte' tail =>
      -- one byte is the whole form
      obtain ⟨rfl, htail⟩ := List.cons_prefix_cons.mp hp
      rw [List.prefix_nil.mp htail] at hne
      exact absurd rfl hne
  | @more byte high form hbyte hform ih =>
    cases p with
    | nil => rw [readVarint]
    | cons byte' tail =>
      obtain ⟨rfl, htail⟩ := List.cons_prefix_cons.mp hp
      have hpos := List.length_pos_iff.mpr hform.ne_nil
      rw [List.length_cons] at hlength
      obtain ⟨more, rfl⟩ : ∃ k, more = k + 1 := ⟨more - 1, by omega⟩
      have hcut := @ih more tail (by omega) htail fun heq => hne (by rw [heq])
      rw [readVarint, if_neg (Nat.not_lt.mpr hbyte), hcut]
      rfl

/-- **A number that is cut short.** -/
theorem needsAll_readVarint {lastMax : Nat} (hlast : lastMax < 128) (more : Nat) :
    NeedsAll (readVarint lastMax more) := by
  intro word rest n hread p hp hne
  have hrecognises : Recognises (readVarint lastMax more) (IsNumeral (more + 1) lastMax) :=
    fun _ _ _ => readVarint_eq_ok_iff hlast more
  have hnumeral := hrecognises.grammar_of_read hread
  exact readVarint_of_prefix hnumeral.isForm hnumeral.length_le hp hne

/-- A length that is cut short. -/
theorem needsAll_readLength : NeedsAll readLength := needsAll_readVarint (by decide) 9

/-- A tag that is cut short. -/
theorem needsAll_readTag : NeedsAll readTag := needsAll_readVarint (by decide) 4

/-- A field of fewer bytes than asked for. -/
theorem needsAll_take (count : Nat) : NeedsAll (take count) := by
  intro word rest field hread p hp hne
  obtain ⟨rfl, hlength⟩ := (recognises_take count).grammar_of_read hread
  have hlt := length_lt_of_prefix hp hne
  have hfield : ¬ (p.take count).length = count := by
    rw [List.length_take]
    omega
  simp only [take, if_neg hfield]

/-- A blob of which the length or the bytes are cut short. -/
theorem needsAll_readBlob : NeedsAll readBlob :=
  needsAll_readLength.andThen needsAll_take recognises_readLength recognises_take

/-- A text that is cut short, also inside a character: its bytes are counted before they are
judged. -/
theorem needsAll_readText : NeedsAll readText :=
  needsAll_readBlob.andThen
    (fun field => .of_takes_nothing (recognises_fromUTF8? field) fun _ _ hword => hword.2)
      recognises_readBlob
    recognises_fromUTF8?

/-- A number of fewer than eight bytes. -/
theorem needsAll_readNumber : NeedsAll readNumber := (needsAll_take 8).map (recognises_take 8) _

/-- A truth value without its byte. -/
theorem needsAll_readBoolean : NeedsAll readBoolean := by
  intro word rest b hread p hp hne
  have hcontent := recognises_readBoolean.grammar_of_read hread
  have hlength : word.length = 1 := by cases hcontent <;> rfl
  have hnil : p = [] := by
    refine List.eq_nil_of_length_eq_zero ?_
    have hlt := length_lt_of_prefix hp hne
    omega
  rw [hnil, readBoolean]

/-- The content that belongs to a tag, cut short. -/
theorem needsAll_readContent (tag : Nat) : NeedsAll (readContent tag) := by
  match tag with
  | 0 => exact needsAll_readNumber.map recognises_readNumber Value.number
  | 1 => exact needsAll_readText.map recognises_readText Value.text
  | 2 => exact needsAll_readBoolean.map recognises_readBoolean Value.boolean
  | 3 => exact .of_takes_nothing (recognises_ok Value.null) fun _ _ hword => hword.2
  | tag + 4 =>
    -- such a tag has no content, so nothing is ever taken
    intro word rest v hread
    cases hread

/-- A constant that is cut short. -/
theorem needsAll_readValue : NeedsAll readValue :=
  needsAll_readTag.andThen needsAll_readContent recognises_readTag recognises_readContent

/-- Constants of which one is cut short, or the last ones are missing. -/
theorem needsAll_readValues (count : Nat) (found : Array Value) :
    NeedsAll (readValues count found) := by
  induction count generalizing found with
  | zero =>
    refine .of_takes_nothing (recognises_ok found) ?_
    intro pool word hword
    exact hword.2
  | succ count ih =>
    rw [readValues_succ]
    exact needsAll_readValue.andThen (fun v => ih (found.push v)) recognises_readValue
      fun v => recognises_readValues count (found.push v)

/-- **The reader of units needs all it takes.** -/
theorem needsAll_readUnit : NeedsAll readUnit := by
  have hpool : ∀ code count, NeedsAll fun bytes =>
      andThen (readValues count #[] bytes) fun pool rest => .ok (CodeUnit.mk code pool, rest) :=
    fun code count => (needsAll_readValues count #[]).map (recognises_readValues count #[]) _
  have hrecognises := fun code count => (recognises_readValues count #[]).map (CodeUnit.mk code)
  have hrest : ∀ code, NeedsAll fun bytes => andThen (readLength bytes) fun count rest =>
      andThen (readValues count #[] rest) fun pool rest' => .ok (CodeUnit.mk code pool, rest') :=
    fun code => needsAll_readLength.andThen (hpool code) recognises_readLength (hrecognises code)
  exact needsAll_readBlob.andThen hrest recognises_readBlob
    fun code => recognises_readLength.andThen (hrecognises code)

end Wire

/-! ## Units that are cut short -/

/-- **A unit that is cut short is reported as cut short.** Of the bytes that are read as a unit some
are taken, and they are an encoding of the unit; whatever is less than them, nothing at all
included, is refused because the data end. -/
theorem ofWire_truncated {bytes : List UInt8} {u : CodeUnit} (h : CodeUnit.ofWire bytes = .ok u) :
    ∃ e rest, bytes = e ++ rest ∧ Wire.readUnit bytes = .ok (u, rest) ∧ Wire.IsEncoding u e ∧
      (∀ p, p <+: e → p ≠ e → CodeUnit.ofWire p = .error .endOfData) ∧
      WireError.endOfData.message
        = "bytecode serialization failed: Hit the end of buffer, expected more data" := by
  obtain ⟨e, ⟨rest, rfl⟩, hencoding⟩ := (CodeUnit.ofWire_eq_ok_iff bytes u).mp h
  have hread : Wire.readUnit (e ++ rest) = .ok (u, rest) :=
    Wire.recognises_readUnit.read_append hencoding rest
  refine ⟨e, rest, rfl, hread, hencoding, ?_, rfl⟩
  intro p hp hne
  rw [CodeUnit.ofWire, Wire.needsAll_readUnit e rest u hread p hp hne]
  rfl

/-- The length of the code and that of a text are padded; the data end inside the two bytes of the
one character of the text, or inside its length. -/
theorem ofWire_truncated_inside_character :
    CodeUnit.ofWire [0x80, 0x00, 0x01, 0x01, 0x82, 0x00, 0xc3, 0xa9, 0xff]
      = .ok ⟨[], #[.text "é"]⟩ ∧
      CodeUnit.ofWire [0x80, 0x00, 0x01, 0x01, 0x82, 0x00, 0xc3] = .error .endOfData ∧
      CodeUnit.ofWire [0x80, 0x00, 0x01, 0x01, 0x82] = .error .endOfData := by
  have hzero : Wire.IsForm 0 [0x00] := @Wire.IsForm.last 0x00 (by decide)
  have hone : Wire.IsForm 1 [0x01] := @Wire.IsForm.last 0x01 (by decide)
  have hcode : Wire.EncodesBlob (fun _ => True) (CodeUnit.mk [] #[.text "é"]).code
      ([0x80, 0x00] ++ []) :=
    .intro ⟨@Wire.IsForm.more 0x80 0 [0x00] (by decide) hzero, by decide, by simp⟩ trivial
  have htext : Wire.EncodesBlob (fun _ => True) (Wire.textBytes "é")
      ([0x82, 0x00] ++ Wire.textBytes "é") :=
    .intro ⟨@Wire.IsForm.more 0x82 0 [0x00] (by decide) hzero, by decide, by simp⟩ trivial
  have hvalue : Wire.EncodesValue (fun _ => True) (.text "é")
      ([0x01] ++ [0x82, 0x00, 0xc3, 0xa9]) :=
    .intro ⟨hone, by decide, by simp⟩ trivial (.text htext)
  have hcount : Wire.IsLength (CodeUnit.mk [] #[.text "é"]).pool.size [0x01] :=
    ⟨hone, by decide, by simp⟩
  have hencoding : Wire.IsEncoding ⟨[], #[.text "é"]⟩
      [0x80, 0x00, 0x01, 0x01, 0x82, 0x00, 0xc3, 0xa9] :=
    .intro hcode hcount trivial (.cons hvalue .nil)
  have hread : Wire.readUnit [0x80, 0x00, 0x01, 0x01, 0x82, 0x00, 0xc3, 0xa9, 0xff]
      = .ok (⟨[], #[.text "é"]⟩, [0xff]) := Wire.recognises_readUnit.read_append hencoding [0xff]
  have hunit : CodeUnit.ofWire [0x80, 0x00, 0x01, 0x01, 0x82, 0x00, 0xc3, 0xa9, 0xff]
      = .ok ⟨[], #[.text "é"]⟩ := by
    rw [CodeUnit.ofWire, hread]
    rfl
  obtain ⟨e, rest, hsplit, htaken, -, hcut, -⟩ := ofWire_truncated hunit
  rw [hread] at htaken
  obtain ⟨-, rfl⟩ := Prod.mk.inj (Except.ok.inj htaken)
  obtain rfl : [0x80, 0x00, 0x01, 0x01, 0x82, 0x00, 0xc3, 0xa9] = e :=
    List.append_cancel_right hsplit
  exact ⟨hunit, hcut _ ⟨[0xa9], rfl⟩ (by decide), hcut _ ⟨[0x00, 0xc3, 0xa9], rfl⟩ (by decide)⟩

end StackMachine
