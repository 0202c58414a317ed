import StackMachine.Wire.Varint

/-! # Forms of a number on the wire

A number has many forms on the wire: groups of seven bits, lowest first, of which any number at the
end may be zero. Reading accepts every form within its limit and writing gives the shortest one.

* **`IsForm n form`** — `form` spells `n`; **`IsNumeral`** is a form within a limit.
* **`readVarint_eq_ok_iff`** — reading accepts exactly the forms within its limit, and takes nothing
  behind them.
* **`IsMinimal form`** — no form of the same number is shorter; `IsForm.isMinimal_iff` says that
  only the written form is minimal.
* **`isNumeral_writeVarint`** and **`IsNumeral.lt`** — the numbers with a form within a limit are
  those up to a bound, and the written form of each is one. -/

namespace StackMachine

namespace Wire

/-! ## Forms and limits -/

/-- **A form of a number**: every byte carries seven bits of it, the lowest first, and every byte
but the last has its high bit set. -/
inductive IsForm : Nat → List UInt8 → Prop where
  /-- The last byte has its high bit clear. -/
  | last {byte : UInt8} (h : byte.toNat < 128) : IsForm byte.toNat [byte]
  /-- Any other byte has it set and is followed by a form of the higher bits. -/
  | more {byte : UInt8} {high : Nat} {form : List UInt8} (h : 128 ≤ byte.toNat)
      (hform : IsForm high form) :
      IsForm (byte.toNat - 128 + 128 * high) (byte :: form)

/-- **A form within a limit**: it has at most `limit` bytes, and the byte that reaches the limit is
at most `lastMax`. -/
structure IsNumeral (limit lastMax n : Nat) (form : List UInt8) : Prop where
  /-- It is a form of the number. -/
  isForm : IsForm n form
  /-- It is not longer than the limit. -/
  length_le : form.length ≤ limit
  /-- The byte at the limit is bounded. -/
  last_le : ∀ byte, form[limit - 1]? = some byte → byte.toNat ≤ lastMax

/-- A form of a length or count: at most ten bytes, the tenth at most `1`. -/
def IsLength (n : Nat) (form : List UInt8) : Prop := IsNumeral 10 1 n form

/-- A form of a tag: at most five bytes, the fifth at most `15`. -/
def IsTag (n : Nat) (form : List UInt8) : Prop := IsNumeral 5 15 n form

/-- A form has at least one byte. -/
theorem IsForm.ne_nil {n : Nat} {form : List UInt8} (h : IsForm n form) : form ≠ [] := by
  cases h <;> exact List.cons_ne_nil _ _

/-- A form spells one number only. -/
theorem IsForm.unique {n n' : Nat} {form : List UInt8} (h : IsForm n form) (h' : IsForm n' form) :
    n = n' := by
  induction h generalizing n' with
  | last hbyte =>
    cases h' with
    | last => rfl
    | more hbyte' hform' => exact absurd rfl hform'.ne_nil
  | more hbyte hform ih =>
    cases h' with
    | last => exact absurd rfl hform.ne_nil
    | more hbyte' hform' => rw [ih hform']

/-- A single byte is within a limit of more bytes. -/
theorem isNumeral_singleton {byte : UInt8} (h : byte.toNat < 128) {more lastMax : Nat}
    (hlast : more = 0 → byte.toNat ≤ lastMax) : IsNumeral (more + 1) lastMax byte.toNat [byte] := by
  refine ⟨.last h, by simp, ?_⟩
  intro byte' hbyte'
  cases more with
  | zero =>
    obtain rfl : byte = byte' := by simpa using hbyte'
    exact hlast rfl
  | succ more => simp at hbyte'

/-- A byte in front of a form raises the limit by one. -/
theorem isNumeral_cons_iff {byte : UInt8} (h : 128 ≤ byte.toNat) {more lastMax high : Nat}
    {form : List UInt8} (hform : IsForm high form) :
    IsNumeral (more + 2) lastMax (byte.toNat - 128 + 128 * high) (byte :: form)
      ↔ IsNumeral (more + 1) lastMax high form := by
  constructor
  · intro hn
    exact ⟨hform, Nat.le_of_succ_le_succ hn.length_le,
      fun byte' hbyte' => hn.last_le byte' (by simpa using hbyte')⟩
  · intro hn
    exact ⟨.more h hform, Nat.succ_le_succ hn.length_le,
      fun byte' hbyte' => hn.last_le byte' (by simpa using hbyte')⟩

/-- A limit of one byte leaves no room for higher bits. -/
theorem not_isNumeral_one_cons {lastMax n high : Nat} {byte : UInt8} {form : List UInt8}
    (hform : IsForm high form) :
    ¬ IsNumeral 1 lastMax n (byte :: form) := by
  intro h
  have hlength := h.length_le
  have hpos := List.length_pos_iff.mpr hform.ne_nil
  rw [List.length_cons] at hlength
  omega

/-! ## Reading a number -/

/-- A continued reading succeeds when both parts do. -/
theorem andThen_eq_ok_iff {α β : Type} {first : Read α} {next : α → List UInt8 → Read β}
    {result : β × List UInt8} :
    andThen first next = .ok result ↔
      ∃ a rest, first = .ok (a, rest) ∧ next a rest = .ok result := by
  constructor
  · intro h
    rcases first with e | ⟨a, rest⟩
    · cases h
    · exact ⟨a, rest, rfl, h⟩
  · rintro ⟨a, rest, rfl, hnext⟩
    exact hnext

/-- What reading accepts starts with a form within its limit. -/
theorem exists_isNumeral_of_readVarint {lastMax : Nat} (hlast : lastMax < 128) {more n : Nat}
    {bytes rest : List UInt8} (h : readVarint lastMax more bytes = .ok (n, rest)) :
    ∃ form, IsNumeral (more + 1) lastMax n form ∧ bytes = form ++ rest := by
  induction more generalizing bytes n with
  | zero =>
    cases bytes with
    | nil => cases h
    | cons byte tail =>
      rw [readVarint] at h
      by_cases hbyte : byte.toNat ≤ lastMax
      · rw [if_pos hbyte] at h
        obtain ⟨rfl, rfl⟩ := Prod.mk.inj (Except.ok.inj h)
        exact ⟨[byte], isNumeral_singleton (by omega) fun _ => hbyte, rfl⟩
      · rw [if_neg hbyte] at h
        cases h
  | succ more ih =>
    cases bytes with
    | nil => cases h
    | cons byte tail =>
      rw [readVarint] at h
      by_cases hbyte : byte.toNat < 128
      · rw [if_pos hbyte] at h
        obtain ⟨rfl, rfl⟩ := Prod.mk.inj (Except.ok.inj h)
        exact ⟨[byte], isNumeral_singleton hbyte fun hzero => absurd hzero (Nat.succ_ne_zero more),
          rfl⟩
      · -- the high bit is set, and the higher bits are read from the bytes behind
        rw [if_neg hbyte, andThen_eq_ok_iff] at h
        obtain ⟨high, rest', hhigh, hresult⟩ := h
        obtain ⟨rfl, rfl⟩ := Prod.mk.inj (Except.ok.inj hresult)
        obtain ⟨form, hform, rfl⟩ := ih hhigh
        exact ⟨byte :: form, (isNumeral_cons_iff (by omega) hform.isForm).mpr hform, rfl⟩

/-- A form within the limit is read, whatever follows it. -/
theorem readVarint_append {lastMax more n : Nat} {form : List UInt8}
    (h : IsNumeral (more + 1) lastMax n form) (rest : List UInt8) :
    readVarint lastMax more (form ++ rest) = .ok (n, rest) := by
  obtain ⟨hform, -, -⟩ := id h
  induction hform generalizing more with
  | @last byte hbyte =>
    cases more with
    | zero =>
      have hle : byte.toNat ≤ lastMax := h.last_le byte rfl
      rw [List.singleton_append, readVarint, if_pos hle]
    | succ more => rw [List.singleton_append, readVarint, if_pos hbyte]
  | @more byte high form hbyte hform ih =>
    cases more with
    | zero => exact (not_isNumeral_one_cons hform h).elim
    | succ more =>
      have hhigh := ih ((isNumeral_cons_iff hbyte hform).mp h)
      rw [List.cons_append, readVarint, if_neg (Nat.not_lt.mpr hbyte), hhigh]
      rfl

/-- **Reading accepts exactly the forms within its limit.** -/
theorem readVarint_eq_ok_iff {lastMax : Nat} (hlast : lastMax < 128) (more : Nat)
    {bytes rest : List UInt8} {n : Nat} :
    readVarint lastMax more bytes = .ok (n, rest) ↔
      ∃ form, IsNumeral (more + 1) lastMax n form ∧ bytes = form ++ rest := by
  constructor
  · exact exists_isNumeral_of_readVarint hlast
  · rintro ⟨form, hform, rfl⟩
    exact readVarint_append hform rest

/-! ## The shortest form -/

/-- **A minimal form**: no form of the same number is shorter. -/
def IsMinimal (form : List UInt8) : Prop :=
  ∀ n other, IsForm n form → IsForm n other → form.length ≤ other.length

/-- The byte of a last group spells it. -/
theorem toNat_lastGroup {n : Nat} (h : n < 128) : (UInt8.ofNat n).toNat = n :=
  UInt8.toNat_ofNat_of_lt' (Nat.lt_trans h (by decide))

/-- The byte of any other group spells it with the high bit set. -/
theorem toNat_markedGroup (n : Nat) : (UInt8.ofNat (n % 128 + 128)).toNat = n % 128 + 128 :=
  UInt8.toNat_ofNat_of_lt' (show n % 128 + 128 < 256 by omega)

/-- The byte of any other group has its high bit set. -/
theorem le_toNat_markedGroup (n : Nat) : 128 ≤ (UInt8.ofNat (n % 128 + 128)).toNat := by
  rw [toNat_markedGroup]
  exact Nat.le_add_left 128 _

/-- The lowest group of a number and the higher bits make it up. -/
theorem markedGroup_add (n : Nat) :
    (UInt8.ofNat (n % 128 + 128)).toNat - 128 + 128 * (n / 128) = n := by
  rw [toNat_markedGroup, Nat.add_sub_cancel]
  exact Nat.mod_add_div n 128

/-- A number below 128 is written in one byte. -/
theorem writeVarint_of_lt {n : Nat} (h : n < 128) : writeVarint n = [UInt8.ofNat n] := by
  rw [writeVarint, if_pos h]

/-- A greater number is written as its lowest group, marked as not the last, and the form of the
higher bits. -/
theorem writeVarint_of_le {n : Nat} (h : 128 ≤ n) :
    writeVarint n = UInt8.ofNat (n % 128 + 128) :: writeVarint (n / 128) := by
  rw [writeVarint, if_neg (Nat.not_lt.mpr h)]

/-- The written form of a number that a byte and the higher bits make up, unless it fits in one
byte. -/
theorem writeVarint_group {byte : UInt8} (hbyte : 128 ≤ byte.toNat) {high : Nat}
    (h : 128 ≤ byte.toNat - 128 + 128 * high) :
    writeVarint (byte.toNat - 128 + 128 * high) = byte :: writeVarint high := by
  have hlt : byte.toNat < 256 := byte.toNat_lt_size
  have hgroup : (byte.toNat - 128 + 128 * high) % 128 + 128 = byte.toNat := by omega
  have hhigh : (byte.toNat - 128 + 128 * high) / 128 = high := by omega
  rw [writeVarint_of_le h, hgroup, hhigh, UInt8.ofNat_toNat]

/-- **The written form of a number is a form of it.** -/
theorem isForm_writeVarint (n : Nat) : IsForm n (writeVarint n) := by
  fun_induction writeVarint n with
  | case1 n hlt =>
    have hform : IsForm (UInt8.ofNat n).toNat [UInt8.ofNat n] :=
      .last (by rwa [toNat_lastGroup hlt])
    rwa [toNat_lastGroup hlt] at hform
  | case2 n hge ih =>
    have hform := IsForm.more (le_toNat_markedGroup n) ih
    rwa [markedGroup_add] at hform

/-- **No form is shorter than the written one.** -/
theorem IsForm.length_writeVarint_le {n : Nat} {form : List UInt8} (h : IsForm n form) :
    (writeVarint n).length ≤ form.length := by
  induction h with
  | last hbyte =>
    rw [writeVarint_of_lt hbyte]
    exact Nat.le_refl 1
  | @more byte high form hbyte hform ih =>
    by_cases hone : byte.toNat - 128 + 128 * high < 128
    · rw [writeVarint_of_lt hone]
      exact Nat.succ_le_succ (Nat.zero_le _)
    · rw [writeVarint_group hbyte (Nat.not_lt.mp hone)]
      exact Nat.succ_le_succ ih

/-- A form as short as the written one is the written one. -/
theorem IsForm.eq_writeVarint {n : Nat} {form : List UInt8} (h : IsForm n form)
    (hlength : form.length ≤ (writeVarint n).length) : form = writeVarint n := by
  induction h with
  | last hbyte => rw [writeVarint_of_lt hbyte, UInt8.ofNat_toNat]
  | @more byte high form hbyte hform ih =>
    by_cases hone : byte.toNat - 128 + 128 * high < 128
    · -- one byte is enough for the number, but the form has at least two
      have hpos := List.length_pos_iff.mpr hform.ne_nil
      rw [writeVarint_of_lt hone, List.length_cons, List.length_singleton] at hlength
      omega
    · rw [writeVarint_group hbyte (Nat.not_lt.mp hone)] at hlength ⊢
      rw [ih (Nat.le_of_succ_le_succ hlength)]

/-- **Only the written form of a number is minimal.** -/
theorem IsForm.isMinimal_iff {n : Nat} {form : List UInt8} (h : IsForm n form) :
    IsMinimal form ↔ form = writeVarint n := by
  constructor
  · intro hminimal
    exact h.eq_writeVarint (hminimal n _ h (isForm_writeVarint n))
  · rintro rfl n' other hn' hother
    rw [hn'.unique h] at hother
    exact hother.length_writeVarint_le

/-- A number with a form within a limit is bounded. -/
theorem IsNumeral.lt {more lastMax n : Nat} {form : List UInt8}
    (h : IsNumeral (more + 1) lastMax n form) :
    n < (lastMax + 1) * Nat.pow 128 more := by
  obtain ⟨hform, -, -⟩ := id h
  induction hform generalizing more with
  | @last byte hbyte =>
    cases more with
    | zero =>
      have hle := h.last_le byte rfl
      show byte.toNat < (lastMax + 1) * 1
      omega
    | succ more =>
      have hpos : 0 < Nat.pow 128 more := Nat.pow_pos (by decide)
      calc byte.toNat < 128 := hbyte
        _ ≤ Nat.pow 128 more * 128 := Nat.le_mul_of_pos_left 128 hpos
        _ ≤ (lastMax + 1) * (Nat.pow 128 more * 128) :=
            Nat.le_mul_of_pos_left _ (Nat.succ_pos lastMax)
  | @more byte high form hbyte hform ih =>
    cases more with
    | zero => exact (not_isNumeral_one_cons hform h).elim
    | succ more =>
      have hlt : byte.toNat < 256 := byte.toNat_lt_size
      have hhigh := ih ((isNumeral_cons_iff hbyte hform).mp h)
      have hpow : (lastMax + 1) * Nat.pow 128 (more + 1) = (lastMax + 1) * Nat.pow 128 more * 128 :=
        (Nat.mul_assoc _ _ _).symm
      rw [hpow]
      omega

/-- **The written form of a number that fits is within the limit.** -/
theorem isNumeral_writeVarint {lastMax : Nat} (hlast : lastMax < 128) {more n : Nat}
    (h : n < (lastMax + 1) * Nat.pow 128 more) :
    IsNumeral (more + 1) lastMax n (Wire.writeVarint n) := by
  fun_induction Wire.writeVarint n generalizing more with
  | case1 n hlt =>
    have hform : IsNumeral (more + 1) lastMax (UInt8.ofNat n).toNat [UInt8.ofNat n] := by
      refine isNumeral_singleton (by rwa [toNat_lastGroup hlt]) ?_
      rintro rfl
      rw [toNat_lastGroup hlt]
      exact Nat.le_of_lt_succ (by simpa using h)
    rwa [toNat_lastGroup hlt] at hform
  | case2 n hge ih =>
    cases more with
    | zero =>
      -- the limit is one byte, which holds no number from 128 on
      have hle : n < lastMax + 1 := by simpa using h
      omega
    | succ more =>
      have hhigh : n / 128 < (lastMax + 1) * Nat.pow 128 more := by
        refine Nat.div_lt_of_lt_mul ?_
        rwa [Nat.mul_comm, Nat.mul_assoc]
      have hform := (isNumeral_cons_iff (le_toNat_markedGroup n) (ih hhigh).isForm).mpr (ih hhigh)
      rwa [markedGroup_add] at hform

/-- Ten bytes hold the 64-bit numbers. -/
theorem IsLength.lt {n : Nat} {form : List UInt8} (h : IsLength n form) : n < UInt64.size :=
  IsNumeral.lt h

/-- A 64-bit number is written in a form that is read as a length. -/
theorem isLength_writeVarint {n : Nat} (h : n < UInt64.size) : IsLength n (writeVarint n) :=
  isNumeral_writeVarint (by decide) h

end Wire

end StackMachine
