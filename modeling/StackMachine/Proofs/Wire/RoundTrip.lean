import StackMachine.Proofs.Wire.Canonical

/-! # Writing and reading units

Reading undoes writing bit for bit, whatever follows the unit. Writing what was read replaces an
encoding by the canonical one of the same unit.

* **`CodeUnit.equals_self_iff`** — a unit equals itself unless it holds a constant that is not a
  number.
* **`CodeUnit.ofWire_eq_ok_iff`** — reading accepts exactly the byte sequences that start with an
  encoding.
* **`ofWire_toWire_append`** — a written unit is read again; no written unit is at the front of
  another.
* **`ofWire_outcome`** — which byte sequences are read as which unit, and what writing makes of
  them. -/

namespace StackMachine

/-! ## Equality of a unit with itself -/

/-- A value equals itself unless it is not a number. -/
theorem Value.equals_self_iff (v : Value) :
    v.equals v = true ↔ ∀ x, v = .number x → x.isNaN = false := by
  cases v with
  | number x => simp [Value.equals, Binary64.equals_self]
  | text s => simp [Value.equals]
  | boolean b => simp [Value.equals]
  | null => simp [Value.equals]

/-- **A unit equals itself unless it holds a constant that is not a number.** -/
theorem CodeUnit.equals_self_iff (u : CodeUnit) :
    u.equals u = true ↔ ∀ x, .number x ∈ u.pool.toList → x.isNaN = false := by
  rw [CodeUnit.equals, beq_self_eq_true, Bool.true_and, Array.isEqv_iff_rel]
  constructor
  · rintro ⟨hsize, hequals⟩ x hmem
    obtain ⟨i, hi, hx⟩ := Array.mem_iff_getElem.mp (Array.mem_toList_iff.mp hmem)
    exact (Value.equals_self_iff _).mp (hequals i hi) x hx
  · intro hnumbers
    refine ⟨rfl, ?_⟩
    intro i hi
    rw [Value.equals_self_iff]
    intro x hx
    exact hnumbers x (hx ▸ Array.mem_toList_iff.mpr (Array.getElem_mem hi))

/-! ## Reading a unit -/

/-- **Reading accepts exactly the byte sequences that start with an encoding.** -/
theorem CodeUnit.ofWire_eq_ok_iff (bytes : List UInt8) (u : CodeUnit) :
    CodeUnit.ofWire bytes = .ok u ↔ ∃ e, e <+: bytes ∧ Wire.IsEncoding u e := by
  rw [CodeUnit.ofWire]
  constructor
  · intro h
    rcases hread : Wire.readUnit bytes with e | ⟨w, rest⟩
    · rw [hread] at h
      cases h
    · rw [hread] at h
      obtain rfl : w = u := Except.ok.inj h
      obtain ⟨e, he, rfl⟩ := (Wire.recognises_readUnit _ _ _).mp hread
      exact ⟨e, List.prefix_append e rest, he⟩
  · rintro ⟨e, ⟨rest, rfl⟩, he⟩
    rw [Wire.recognises_readUnit.read_append he rest]
    rfl

/-- A written unit is read again, whatever follows it. -/
theorem CodeUnit.ofWire_of_addressable {u : CodeUnit} (h : u.Addressable) (rest : List UInt8) :
    CodeUnit.ofWire (u.toWire ++ rest) = .ok u :=
  (CodeUnit.ofWire_eq_ok_iff _ u).mpr ⟨u.toWire, List.prefix_append _ _,
    Wire.canonical_toWire.weaken (Wire.canonical_toWire.minimal_write h)⟩

/-- **A written unit is read again, bit for bit and whatever follows it**, and it equals the
original unless a constant is not a number. Different units are written differently, and no written
unit is at the front of another one. A length that is no 64-bit number has no form that is read, so
units are taken as they fit in memory. -/
theorem ofWire_toWire_append {u : CodeUnit} (h : u.Addressable) :
    (∀ rest, ∃ w, CodeUnit.ofWire (u.toWire ++ rest) = .ok w ∧ w.code = u.code ∧ w.pool = u.pool ∧
      (w.equals u = true ↔ ∀ x, .number x ∈ u.pool.toList → x.isNaN = false)) ∧
    ∀ w : CodeUnit, w.Addressable →
      (w.toWire = u.toWire → w = u) ∧ (u.toWire <+: w.toWire → u.toWire = w.toWire) := by
  refine ⟨?_, ?_⟩
  · intro rest
    exact ⟨u, CodeUnit.ofWire_of_addressable h rest, rfl, rfl, u.equals_self_iff⟩
  · intro w hw
    -- a written unit that starts with another one is read as both
    have hread : ∀ rest, u.toWire ++ rest = w.toWire → u = w := by
      intro rest heq
      have hu := CodeUnit.ofWire_of_addressable h rest
      have hw' := CodeUnit.ofWire_of_addressable hw []
      rw [heq] at hu
      rw [List.append_nil, hu] at hw'
      exact Except.ok.inj hw'
    refine ⟨?_, ?_⟩
    · intro heq
      exact (hread [] (by rw [List.append_nil, heq])).symm
    · rintro ⟨rest, heq⟩
      rw [hread rest heq]

/-- The written unit holds a quiet and a signalling word, a negative zero, a text of two-byte
characters and the other kinds of values; the word that is not a number keeps the reloaded unit from
being equal. -/
theorem ofWire_toWire_append_mixed_pool :
    let u : CodeUnit :=
      ⟨[0x01, 0x00, 0x00, 0x10], #[.number ⟨0x7ff8000000000001⟩, .number ⟨0xfff0000000000001⟩,
        .number ⟨0x8000000000000000⟩, .text "né", .boolean true, .null]⟩
    u.Addressable ∧ ∃ w, CodeUnit.ofWire (u.toWire ++ [0xff]) = .ok w ∧ w.pool = u.pool ∧
      w.equals u = false := by
  intro u
  have hfits : u.Addressable := by
    have htext : (Wire.textBytes "né").length < UInt64.size := by decide
    refine ⟨by decide, by decide, ?_⟩
    simp only [u, List.forall_mem_cons]
    exact ⟨trivial, trivial, trivial, htext, trivial, trivial, by simp⟩
  obtain ⟨w, hread, -, hpool, hequals⟩ := (ofWire_toWire_append hfits).1 [0xff]
  refine ⟨hfits, w, hread, hpool, ?_⟩
  rw [Bool.eq_false_iff, ne_eq, hequals]
  intro hnumbers
  have hnumber := hnumbers ⟨0x7ff8000000000001⟩ (by simp [u])
  revert hnumber
  decide

/-! ## Encodings and their canonical form -/

/-- Reads the unit at the front of a byte sequence and writes it again. -/
def Wire.canonicalise (bytes : List UInt8) : Except WireError (List UInt8) :=
  (CodeUnit.ofWire bytes).map CodeUnit.toWire

/-- **What is read, and what writing makes of it.** A byte sequence is read as a unit exactly when
an encoding of the unit is at its front; this is then the only encoding of any unit there. The
written unit is no longer than any of its encodings, and it is the one whose lengths and tags are
all minimal. Reading and writing once more changes nothing. -/
theorem ofWire_outcome (bytes : List UInt8) (u : CodeUnit) :
    (CodeUnit.ofWire bytes = .ok u ↔ ∃ e, e <+: bytes ∧ Wire.IsEncoding u e) ∧
    (∀ e e' u', e <+: bytes → Wire.IsEncoding u e → e' <+: bytes → Wire.IsEncoding u' e' →
      e' = e ∧ u' = u) ∧
    (∀ e, Wire.IsEncoding u e →
      u.toWire.length ≤ e.length ∧ (u.toWire = e ↔ Wire.EncodesUnit Wire.IsMinimal u e)) ∧
    (Wire.canonicalise bytes).bind Wire.canonicalise = Wire.canonicalise bytes := by
  refine ⟨CodeUnit.ofWire_eq_ok_iff bytes u, ?_, ?_, ?_⟩
  · rintro e e' u' ⟨rest, hsplit⟩ he ⟨rest', hsplit'⟩ he'
    exact (Wire.recognises_readUnit.unambiguous he' he (hsplit'.trans hsplit.symm)).symm
  · intro e he
    refine ⟨Wire.canonical_toWire.length_write_le he, ?_, ?_⟩
    · rintro rfl
      exact Wire.canonical_toWire.minimal_write (Wire.canonical_toWire.fits_of_word he)
    · intro hminimal
      exact (Wire.canonical_toWire.eq_write hminimal).symm
  · rw [Wire.canonicalise]
    cases hread : CodeUnit.ofWire bytes with
    | error e => rfl
    | ok w =>
      -- a unit that was read has an encoding, so what is written of it is read again
      obtain ⟨e, -, he⟩ := (CodeUnit.ofWire_eq_ok_iff bytes w).mp hread
      have hagain := CodeUnit.ofWire_of_addressable (Wire.canonical_toWire.fits_of_word he) []
      rw [List.append_nil] at hagain
      show Wire.canonicalise w.toWire = .ok w.toWire
      rw [Wire.canonicalise, hagain]
      rfl

/-- The length of an empty code in two bytes instead of one is accepted, and it is not minimal. -/
theorem ofWire_outcome_padded_length :
    CodeUnit.ofWire [0x80, 0x00, 0x00, 0x2a] = .ok CodeUnit.empty ∧
      ¬ Wire.EncodesUnit Wire.IsMinimal CodeUnit.empty [0x80, 0x00, 0x00] := by
  have hzero : Wire.IsForm 0 [0x00] := @Wire.IsForm.last 0x00 (by decide)
  have hpadded : Wire.IsForm 0 [0x80, 0x00] := @Wire.IsForm.more 0x80 0 [0x00] (by decide) hzero
  have hcode : Wire.EncodesBlob (fun _ => True) CodeUnit.empty.code ([0x80, 0x00] ++ []) :=
    .intro ⟨hpadded, by decide, by simp⟩ trivial
  have hcount : Wire.IsLength CodeUnit.empty.pool.size [0x00] := ⟨hzero, by decide, by simp⟩
  have hencoding : Wire.IsEncoding CodeUnit.empty [0x80, 0x00, 0x00] :=
    .intro hcode hcount trivial .nil
  obtain ⟨hread, -, hforms, -⟩ := ofWire_outcome [0x80, 0x00, 0x00, 0x2a] CodeUnit.empty
  refine ⟨hread.mpr ⟨_, ⟨[0x2a], rfl⟩, hencoding⟩, ?_⟩
  rw [← (hforms _ hencoding).2]
  simp [CodeUnit.toWire, CodeUnit.empty, Wire.writeBlob, Wire.writeVarint_of_lt]

end StackMachine
