import StackMachine.Proofs.Code.Operands
import StackMachine.Proofs.Wire.Forms
import StackMachine.Wire.Unit

/-! # The grammar of the wire

What a unit may look like on the wire is told by a grammar, without a reader: every length and every
tag in any form within its limit, a number as eight bytes, a text as its UTF-8 bytes, a truth value
as `0` or `1`. The reader accepts exactly this grammar, from the front, and leaves what follows.

* **`EncodesUnit allowed u e`** — `e` is an encoding of `u` in which every length and every tag has
  an allowed form; **`IsEncoding u e`** allows all of them.
* **`Recognises read grammar`** — `read` accepts exactly the words of `grammar`; such a grammar is
  unambiguous (`Recognises.unambiguous`).
* **`recognises_readUnit`** — the reader of units recognises the encodings of units. -/

namespace StackMachine

namespace Wire

/-! ## Encodings -/

/-- The number that a byte sequence spells, least significant byte first. -/
def littleEndian : List UInt8 → Nat
  | [] => 0
  | byte :: rest => byte.toNat + 256 * littleEndian rest

section Encodings

variable (allowed : List UInt8 → Prop)

/-- A length and as many bytes. -/
inductive EncodesBlob : List UInt8 → List UInt8 → Prop where
  /-- The length comes first. -/
  | intro {length content : List UInt8} (hlength : IsLength content.length length)
      (hallowed : allowed length) :
      EncodesBlob content (length ++ content)

/-- The content of a constant with a given tag. -/
inductive EncodesContent : Nat → Value → List UInt8 → Prop where
  /-- A number is its word in eight bytes, lowest first. -/
  | number {x : Binary64} {field : List UInt8} (hlength : field.length = 8)
      (hword : x.bits.toNat = littleEndian field) : EncodesContent 0 (.number x) field
  /-- A text is its UTF-8 bytes behind their number. -/
  | text {s : String} {blob : List UInt8} (hblob : EncodesBlob allowed (textBytes s) blob) :
      EncodesContent 1 (.text s) blob
  /-- The false truth value is a zero. -/
  | false : EncodesContent 2 (.boolean false) [0]
  /-- The true one is a one. -/
  | true : EncodesContent 2 (.boolean true) [1]
  /-- Null has no content. -/
  | null : EncodesContent 3 .null []

/-- A constant: a tag and the content that belongs to it. -/
inductive EncodesValue : Value → List UInt8 → Prop where
  /-- The tag comes first. -/
  | intro {n : Nat} {v : Value} {tag content : List UInt8} (htag : IsTag n tag)
      (hallowed : allowed tag) (hcontent : EncodesContent allowed n v content) :
      EncodesValue v (tag ++ content)

/-- Constants one after the other. -/
inductive EncodesValues : List Value → List UInt8 → Prop where
  /-- No constants take no bytes. -/
  | nil : EncodesValues [] []
  /-- The first constant precedes the others. -/
  | cons {v : Value} {rest : List Value} {front back : List UInt8}
      (hfirst : EncodesValue allowed v front) (hrest : EncodesValues rest back) :
      EncodesValues (v :: rest) (front ++ back)

/-- **An encoding of a unit**: its code behind the length, the number of its constants, and the
constants. Every length and every tag has an allowed form. -/
inductive EncodesUnit : CodeUnit → List UInt8 → Prop where
  /-- The code comes first. -/
  | intro {u : CodeUnit} {blob count values : List UInt8} (hcode : EncodesBlob allowed u.code blob)
      (hcount : IsLength u.pool.size count) (hallowed : allowed count)
      (hvalues : EncodesValues allowed u.pool.toList values) :
      EncodesUnit u (blob ++ (count ++ values))

end Encodings

/-- **An encoding of a unit with any forms** of its lengths and tags. -/
def IsEncoding (u : CodeUnit) (e : List UInt8) : Prop := EncodesUnit (fun _ => True) u e

/-! ## Readers of a grammar -/

/-- **A reader of a grammar** accepts a byte sequence exactly when a word of the grammar is at its
front, and leaves what follows the word. -/
def Recognises {α : Type} (read : List UInt8 → Read α) (grammar : α → List UInt8 → Prop) : Prop :=
  ∀ bytes a rest, read bytes = .ok (a, rest) ↔ ∃ word, grammar a word ∧ bytes = word ++ rest

/-- A reader reads a word of its grammar, whatever follows it. -/
theorem Recognises.read_append {α : Type} {read : List UInt8 → Read α}
    {grammar : α → List UInt8 → Prop} (h : Recognises read grammar) {a : α} {word : List UInt8}
    (hword : grammar a word) (rest : List UInt8) :
    read (word ++ rest) = .ok (a, rest) :=
  (h _ _ _).mpr ⟨word, hword, rfl⟩

/-- **A grammar with a reader is unambiguous**: two words at the front of one byte sequence are the
same word and mean the same. -/
theorem Recognises.unambiguous {α : Type} {read : List UInt8 → Read α}
    {grammar : α → List UInt8 → Prop} (h : Recognises read grammar) {a a' : α}
    {word word' rest rest' : List UInt8} (hword : grammar a word) (hword' : grammar a' word')
    (heq : word ++ rest = word' ++ rest') : a = a' ∧ word = word' := by
  have hread := h.read_append hword rest
  rw [heq, h.read_append hword' rest'] at hread
  obtain ⟨rfl, rfl⟩ := Prod.mk.inj (Except.ok.inj hread)
  exact ⟨rfl, List.append_cancel_right heq⟩

/-- A grammar may be replaced by an equivalent one. -/
theorem Recognises.congr {α : Type} {read : List UInt8 → Read α}
    {grammar grammar' : α → List UInt8 → Prop} (h : Recognises read grammar)
    (heq : ∀ a word, grammar a word ↔ grammar' a word) :
    Recognises read grammar' := by
  intro bytes a rest
  simp only [h bytes a rest, heq]

/-- Reading nothing recognises the empty word. -/
theorem recognises_ok {α : Type} (a : α) :
    Recognises (fun bytes => .ok (a, bytes)) fun a' word => a = a' ∧ word = [] := by
  intro bytes a' rest
  constructor
  · intro h
    obtain ⟨rfl, rfl⟩ := Prod.mk.inj (Except.ok.inj h)
    exact ⟨[], ⟨rfl, rfl⟩, rfl⟩
  · rintro ⟨word, ⟨rfl, rfl⟩, rfl⟩
    rfl

/-- **Two readers one after the other** recognise the words of the one followed by those of the
other. -/
theorem Recognises.andThen {α β : Type} {first : List UInt8 → Read α}
    {next : α → List UInt8 → Read β} {front : α → List UInt8 → Prop}
    {back : α → β → List UInt8 → Prop} (hfirst : Recognises first front)
    (hnext : ∀ a, Recognises (next a) (back a)) :
    Recognises (fun bytes => Wire.andThen (first bytes) next) fun b word =>
      ∃ a word₁ word₂, front a word₁ ∧ back a b word₂ ∧ word = word₁ ++ word₂ := by
  intro bytes b rest
  rw [andThen_eq_ok_iff]
  constructor
  · rintro ⟨a, middle, hread, hread'⟩
    obtain ⟨word₁, hword₁, rfl⟩ := (hfirst _ _ _).mp hread
    obtain ⟨word₂, hword₂, rfl⟩ := (hnext a _ _ _).mp hread'
    exact ⟨word₁ ++ word₂, ⟨a, word₁, word₂, hword₁, hword₂, rfl⟩, (List.append_assoc _ _ _).symm⟩
  · rintro ⟨word, ⟨a, word₁, word₂, hword₁, hword₂, rfl⟩, rfl⟩
    rw [List.append_assoc]
    exact ⟨a, word₂ ++ rest, hfirst.read_append hword₁ _, (hnext a).read_append hword₂ rest⟩

/-- A reader whose values are converted recognises the same words. -/
theorem Recognises.map {α β : Type} {read : List UInt8 → Read α} {grammar : α → List UInt8 → Prop}
    (h : Recognises read grammar) (convert : α → β) :
    Recognises (fun bytes => Wire.andThen (read bytes) fun a rest => .ok (convert a, rest))
      fun b word =>
      ∃ a, grammar a word ∧ convert a = b := by
  refine (h.andThen fun a => recognises_ok (convert a)).congr ?_
  intro b word
  constructor
  · rintro ⟨a, word, -, hword, ⟨rfl, rfl⟩, rfl⟩
    rw [List.append_nil]
    exact ⟨a, hword, rfl⟩
  · rintro ⟨a, hword, rfl⟩
    exact ⟨a, word, [], hword, ⟨rfl, rfl⟩, (List.append_nil word).symm⟩

/-! ## The readers of the wire -/

/-- Lengths are read in any form within their limit. -/
theorem recognises_readLength : Recognises readLength IsLength :=
  fun _ _ _ => readVarint_eq_ok_iff (by decide) 9

/-- Tags are read in any form within their limit. -/
theorem recognises_readTag : Recognises readTag IsTag :=
  fun _ _ _ => readVarint_eq_ok_iff (by decide) 4

/-- Exactly `count` bytes are taken. -/
theorem recognises_take (count : Nat) :
    Recognises (take count) fun field word => field = word ∧ word.length = count := by
  intro bytes field rest
  simp only [take]
  constructor
  · intro h
    by_cases hlength : (bytes.take count).length = count
    · rw [if_pos hlength] at h
      obtain ⟨rfl, rfl⟩ := Prod.mk.inj (Except.ok.inj h)
      exact ⟨bytes.take count, ⟨rfl, hlength⟩, (List.take_append_drop count bytes).symm⟩
    · rw [if_neg hlength] at h
      cases h
  · rintro ⟨word, ⟨rfl, rfl⟩, rfl⟩
    simp

/-- A length and as many bytes are read. -/
theorem recognises_readBlob : Recognises readBlob (EncodesBlob fun _ => True) := by
  refine (recognises_readLength.andThen recognises_take).congr ?_
  intro content word
  constructor
  · rintro ⟨n, length, content', hlength, ⟨rfl, rfl⟩, rfl⟩
    exact .intro hlength trivial
  · rintro ⟨hlength, -⟩
    exact ⟨_, _, _, hlength, ⟨rfl, rfl⟩, rfl⟩

/-- The bytes that are read as a text are its UTF-8 bytes. -/
theorem fromUTF8?_eq_some_iff (field : List UInt8) (s : String) :
    String.fromUTF8? ⟨field.toArray⟩ = some s ↔ field = textBytes s := by
  rw [String.fromUTF8?]
  constructor
  · intro h
    split at h
    · obtain rfl := Option.some.inj h
      rfl
    · cases h
  · rintro rfl
    have hbytes : (⟨(textBytes s).toArray⟩ : ByteArray) = s.toByteArray := rfl
    simp only [hbytes]
    rw [dif_pos s.isValidUTF8]
    rfl

/-- Bytes that are no UTF-8 are refused. -/
theorem recognises_fromUTF8? (field : List UInt8) :
    Recognises (fun rest => match String.fromUTF8? ⟨field.toArray⟩ with
      | some s => .ok (s, rest)
      | none => .error .badText) fun s word => field = textBytes s ∧ word = [] := by
  intro bytes s rest
  simp only [← fromUTF8?_eq_some_iff]
  cases String.fromUTF8? ⟨field.toArray⟩ with
  | none => simp
  | some s' => simpa only [Option.some.injEq] using recognises_ok s' bytes s rest

/-- A text is read from its length and its UTF-8 bytes. -/
theorem recognises_readText :
    Recognises readText fun s word => EncodesBlob (fun _ => True) (textBytes s) word := by
  refine (recognises_readBlob.andThen recognises_fromUTF8?).congr ?_
  intro s word
  constructor
  · rintro ⟨field, blob, -, hblob, ⟨rfl, rfl⟩, rfl⟩
    rwa [List.append_nil]
  · intro hblob
    exact ⟨_, word, [], hblob, ⟨rfl, rfl⟩, (List.append_nil word).symm⟩

/-- Bytes in one order spell what they spell in the other when they are reversed. -/
theorem ofBigEndian_reverse (field : List UInt8) :
    ofBigEndian field.reverse = littleEndian field := by
  induction field with
  | nil => rfl
  | cons byte rest ih =>
    rw [ofBigEndian, List.reverse_cons, List.foldl_append, ← ofBigEndian, ih]
    exact Nat.add_comm _ _

/-- Eight bytes spell a word. -/
theorem littleEndian_lt {field : List UInt8} (h : field.length = 8) :
    littleEndian field < UInt64.size := by
  have hlt := ofBigEndian_lt field.reverse
  rwa [List.length_reverse, h, ofBigEndian_reverse] at hlt

/-- A number is read from eight bytes, the lowest first. -/
theorem recognises_readNumber :
    Recognises readNumber fun x word => word.length = 8 ∧ x.bits.toNat = littleEndian word := by
  refine ((recognises_take 8).map _).congr ?_
  intro x word
  constructor
  · rintro ⟨field, ⟨rfl, hlength⟩, rfl⟩
    rw [ofBigEndian_reverse]
    exact ⟨hlength, UInt64.toNat_ofNat_of_lt' (littleEndian_lt hlength)⟩
  · rintro ⟨hlength, hword⟩
    refine ⟨word, ⟨rfl, hlength⟩, ?_⟩
    rw [ofBigEndian_reverse, ← hword, UInt64.ofNat_toNat]

/-- A truth value is read from one byte. -/
theorem recognises_readBoolean :
    Recognises readBoolean fun b word => EncodesContent (fun _ => True) 2 (.boolean b) word := by
  intro bytes b rest
  constructor
  · intro h
    cases bytes with
    | nil => cases h
    | cons byte tail =>
      rw [readBoolean] at h
      by_cases hzero : byte = 0
      · rw [if_pos hzero] at h
        obtain ⟨rfl, rfl⟩ := Prod.mk.inj (Except.ok.inj h)
        exact ⟨[0], .false, by rw [hzero, List.singleton_append]⟩
      · rw [if_neg hzero] at h
        by_cases hone : byte = 1
        · rw [if_pos hone] at h
          obtain ⟨rfl, rfl⟩ := Prod.mk.inj (Except.ok.inj h)
          exact ⟨[1], .true, by rw [hone, List.singleton_append]⟩
        · rw [if_neg hone] at h
          cases h
  · rintro ⟨word, hword, rfl⟩
    cases hword <;> rfl

/-- The content that belongs to a tag is read; there is none for a tag above three. -/
theorem recognises_readContent (tag : Nat) :
    Recognises (readContent tag) (EncodesContent (fun _ => True) tag) := by
  match tag with
  | 0 =>
    refine (recognises_readNumber.map Value.number).congr ?_
    intro v word
    constructor
    · rintro ⟨x, ⟨hlength, hword⟩, rfl⟩
      exact .number hlength hword
    · intro hcontent
      cases hcontent with
      | number hlength hword => exact ⟨_, ⟨hlength, hword⟩, rfl⟩
  | 1 =>
    refine (recognises_readText.map Value.text).congr ?_
    intro v word
    constructor
    · rintro ⟨s, hblob, rfl⟩
      exact .text hblob
    · intro hcontent
      cases hcontent with
      | text hblob => exact ⟨_, hblob, rfl⟩
  | 2 =>
    refine (recognises_readBoolean.map Value.boolean).congr ?_
    intro v word
    constructor
    · rintro ⟨b, hcontent, rfl⟩
      exact hcontent
    · intro hcontent
      cases hcontent with
      | false => exact ⟨_, .false, rfl⟩
      | true => exact ⟨_, .true, rfl⟩
  | 3 =>
    refine (recognises_ok Value.null).congr ?_
    intro v word
    constructor
    · rintro ⟨rfl, rfl⟩
      exact .null
    · intro hcontent
      cases hcontent
      exact ⟨rfl, rfl⟩
  | tag + 4 =>
    intro bytes v rest
    constructor
    · intro h
      cases h
    · rintro ⟨word, hcontent, -⟩
      cases hcontent

/-- A constant is read from its tag and its content. -/
theorem recognises_readValue : Recognises readValue (EncodesValue fun _ => True) := by
  refine (recognises_readTag.andThen recognises_readContent).congr ?_
  intro v word
  constructor
  · rintro ⟨n, tag, content, htag, hcontent, rfl⟩
    exact .intro htag trivial hcontent
  · intro hvalue
    cases hvalue with
    | intro htag _ hcontent => exact ⟨_, _, _, htag, hcontent, rfl⟩

/-- The first of some constants is read before the others. -/
theorem readValues_succ (count : Nat) (found : Array Value) :
    readValues (count + 1) found
      = fun bytes => andThen (readValue bytes) fun v rest =>
        readValues count (found.push v) rest := by
  funext bytes
  rw [readValues]
  rcases readValue bytes with e | ⟨v, rest⟩ <;> rfl

/-- Constants are read one after the other behind those already found. -/
theorem recognises_readValues (count : Nat) (found : Array Value) :
    Recognises (readValues count found) fun pool word =>
      ∃ values, values.length = count ∧ EncodesValues (fun _ => True) values word ∧
        pool = found ++ values.toArray := by
  induction count generalizing found with
  | zero =>
    refine (recognises_ok found).congr ?_
    intro pool word
    constructor
    · rintro ⟨rfl, rfl⟩
      exact ⟨[], rfl, .nil, by simp⟩
    · rintro ⟨values, hlength, hvalues, rfl⟩
      obtain rfl := List.eq_nil_of_length_eq_zero hlength
      cases hvalues
      exact ⟨by simp, rfl⟩
  | succ count ih =>
    rw [readValues_succ]
    refine (recognises_readValue.andThen fun v => ih (found.push v)).congr ?_
    intro pool word
    constructor
    · rintro ⟨v, front, back, hfirst, ⟨values, rfl, hrest, rfl⟩, rfl⟩
      exact ⟨v :: values, rfl, .cons hfirst hrest, by simp⟩
    · rintro ⟨values, hlength, hvalues, rfl⟩
      cases hvalues with
      | nil => cases hlength
      | cons hfirst hrest => exact ⟨_, _, _, hfirst, ⟨_, Nat.succ.inj hlength, hrest, by simp⟩, rfl⟩

/-- **The reader of units recognises the encodings of units.** -/
theorem recognises_readUnit : Recognises readUnit IsEncoding := by
  -- behind the code stand the number of the constants
  -- and the constants, which make up the unit with it
  refine (recognises_readBlob.andThen fun code => recognises_readLength.andThen fun count =>
    (recognises_readValues count #[]).map fun pool => CodeUnit.mk code pool).congr ?_
  intro u word
  constructor
  · rintro ⟨code, blob, -, hblob,
      ⟨-, length, forms, hcount, ⟨pool, ⟨values, rfl, hvalues, rfl⟩, rfl⟩, rfl⟩, rfl⟩
    refine .intro hblob ?_ trivial ?_
    · simpa using hcount
    · simpa using hvalues
  · intro hunit
    cases hunit with
    | intro hblob hcount _ hvalues =>
      exact ⟨_, _, _, hblob, ⟨_, _, _, hcount, ⟨_, ⟨_, rfl, hvalues, rfl⟩, by simp⟩, rfl⟩, rfl⟩

end Wire

end StackMachine
