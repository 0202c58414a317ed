import StackMachine.Proofs.Listing.Lines

/-! # Code built by attempts

Code is built by attempts to append an instruction, given as an opcode with operands. An attempt
whose operands do not go with the opcode is refused and changes nothing; any other appends the bytes
of its instruction and tells where they start. So the code always consists of the instructions of
the successful attempts, and its listing shows them.

* **`RawInstr.Refused`** — the attempts that are refused, and with which error.
* **`CodeUnit.attempt`** and **`CodeUnit.attemptAll`** — one attempt, and a history of attempts.
* **`CodeUnit.attempt_eq_error_iff`** and **`CodeUnit.exists_encode_of_attempt`** — what one attempt
  does.
* **`exists_instrs_of_attemptAll`** — the code after any history.
* **`attemptAll_outcome`** — the results, the code and the listing of a history. -/

namespace StackMachine

/-! ## Refused instructions -/

/-- The operands of a raw instruction, with the widths that its opcode has for them. -/
def RawInstr.fields (r : RawInstr) : List (Nat × Nat) := r.operands.zip r.op.layout.widths

/-- **Refused instructions**: `r.Refused e` says that the operands of `r` do not go with its opcode,
and which error this is. Their number comes first, and then the first of them that is too large for
its width. -/
inductive RawInstr.Refused (r : RawInstr) : InstrError → Prop where
  /-- There are more or fewer operands than the opcode has. -/
  | count (h : r.operands.length ≠ r.op.layout.widths.length) :
      r.Refused (.operandCount r.op r.op.layout.widths.length r.operands.length)
  /-- An operand has more bits than its width. -/
  | overflow (hcount : r.operands.length = r.op.layout.widths.length)
      {before after : List (Nat × Nat)} {operand width : Nat}
      (hfields : r.fields = before ++ (operand, width) :: after)
      (hbefore : ∀ field ∈ before, field.1 < Nat.pow 2 (8 * field.2))
      (hlarge : Nat.pow 2 (8 * width) ≤ operand) :
      r.Refused (.operandOverflow r.op operand width)

/-- A raw instruction with as many operands as its opcode has is a load of some index or an
operation. -/
theorem RawInstr.eq_of_length_eq {r : RawInstr}
    (h : r.operands.length = r.op.layout.widths.length) :
    (∃ index, r = ⟨.constant, [index]⟩) ∨ ∃ op, r = ⟨.arith op, []⟩ := by
  rcases r with ⟨_ | op, operands⟩
  · obtain ⟨index, rfl⟩ := List.length_eq_one_iff.mp h
    exact Or.inl ⟨index, rfl⟩
  · have hnone : operands.length = 0 := by
      rw [h]
      cases op <;> rfl
    rw [List.length_eq_zero_iff.mp hnone]
    exact Or.inr ⟨op, rfl⟩

/-- Another number of operands than the opcode has is refused. -/
theorem Instr.ofOperands_of_length_ne {r : RawInstr}
    (h : r.operands.length ≠ r.op.layout.widths.length) :
    Instr.ofOperands r.op r.operands
      = .error (.operandCount r.op r.op.layout.widths.length r.operands.length) := by
  rcases r with ⟨_ | op, operands⟩
  · match operands, h with
    | [], _ => rfl
    | [_], h => exact absurd rfl h
    | _ :: _ :: _, _ => rfl
  · match operands, h with
    | [], h => exact absurd (by cases op <;> rfl) h
    | _ :: _, _ => rfl

/-- A load is refused when its index needs more than two bytes. -/
theorem RawInstr.refused_load_iff {index : Nat} {e : InstrError} :
    RawInstr.Refused ⟨.constant, [index]⟩ e ↔
      ¬ index < UInt16.size ∧ e = .operandOverflow .constant index 2 := by
  constructor
  · intro h
    cases h with
    | count hcount => exact absurd rfl hcount
    | @overflow _ before after operand width hfields hbefore hlarge =>
      -- the index is the only operand
      have hone : [(index, 2)] = before ++ (operand, width) :: after := hfields
      obtain ⟨rfl, hfield⟩ | ⟨-, hnil⟩ := List.singleton_eq_append_iff.mp hone
      · cases hfield
        exact ⟨Nat.not_lt_of_le hlarge, rfl⟩
      · cases hnil
  · rintro ⟨hlarge, rfl⟩
    have hfields : RawInstr.fields ⟨.constant, [index]⟩ = [] ++ (index, 2) :: [] := rfl
    exact .overflow rfl hfields (by simp) (Nat.le_of_not_lt hlarge)

/-- An operation without operands is not refused. -/
theorem RawInstr.not_refused_apply (op : Arith) (e : InstrError) :
    ¬ RawInstr.Refused ⟨.arith op, []⟩ e := by
  intro h
  cases h with
  | count hcount => exact hcount (by cases op <;> rfl)
  | overflow hcount hfields => simp [RawInstr.fields] at hfields

/-- What is refused, in words: another number of operands than the opcode has, or an operand that is
not below the power of two that its width stands for. -/
theorem RawInstr.exists_refused_iff (r : RawInstr) :
    (∃ e, r.Refused e) ↔
      r.operands.length ≠ r.op.layout.widths.length ∨
        ∃ field ∈ r.fields, Nat.pow 2 (8 * field.2) ≤ field.1 := by
  constructor
  · rintro ⟨e, hrefused⟩
    cases hrefused with
    | count hcount => exact Or.inl hcount
    | overflow hcount hfields hbefore hlarge =>
      rw [hfields]
      exact Or.inr ⟨_, List.mem_append_right _ List.mem_cons_self, hlarge⟩
  · intro h
    by_cases hcount : r.operands.length = r.op.layout.widths.length
    · obtain ⟨field, hfield, hlarge⟩ := h.resolve_left (not_not_intro hcount)
      obtain ⟨index, rfl⟩ | ⟨op, rfl⟩ := RawInstr.eq_of_length_eq hcount
      · cases List.mem_singleton.mp hfield
        exact ⟨_, RawInstr.refused_load_iff.mpr ⟨Nat.not_lt_of_le hlarge, rfl⟩⟩
      · cases hfield
    · exact ⟨_, .count hcount⟩

/-- **Instructions are made of all that is not refused**, and any other fails with the error that it
is refused with. -/
theorem Instr.ofOperands_eq_error_iff (r : RawInstr) (e : InstrError) :
    Instr.ofOperands r.op r.operands = .error e ↔ r.Refused e := by
  by_cases hcount : r.operands.length = r.op.layout.widths.length
  · obtain ⟨index, rfl⟩ | ⟨op, rfl⟩ := RawInstr.eq_of_length_eq hcount
    · rw [RawInstr.refused_load_iff, Instr.ofOperands]
      by_cases hindex : index < UInt16.size
      · simp [hindex]
      · simp [hindex, eq_comm]
    · refine iff_of_false ?_ (RawInstr.not_refused_apply op e)
      rw [Instr.ofOperands]
      intro hmade
      cases hmade
  · rw [Instr.ofOperands_of_length_ne hcount]
    constructor
    · intro h
      cases h
      exact .count hcount
    · intro h
      cases h with
      | count => rfl
      | overflow hcount' => exact absurd hcount' hcount

/-- An instruction shows the opcode and the operands that it is made of. -/
theorem Instr.raw_of_ofOperands {r : RawInstr} {i : Instr}
    (h : Instr.ofOperands r.op r.operands = .ok i) :
    i.raw = r := by
  by_cases hcount : r.operands.length = r.op.layout.widths.length
  · obtain ⟨index, rfl⟩ | ⟨op, rfl⟩ := RawInstr.eq_of_length_eq hcount
    · rw [Instr.ofOperands] at h
      by_cases hindex : index < UInt16.size
      · rw [if_pos hindex] at h
        cases h
        rw [Instr.raw, Instr.operands, UInt16.toNat_ofNat_of_lt' hindex]
        rfl
      · rw [if_neg hindex] at h
        cases h
    · cases h
      rfl
  · rw [Instr.ofOperands_of_length_ne hcount] at h
    cases h

/-! ## Attempts -/

/-- **An attempt** to append a raw instruction to the code of a unit: the offset where it starts, or
the error that it is refused with, and the unit afterwards. -/
def CodeUnit.attempt (u : CodeUnit) (r : RawInstr) : Except InstrError Nat × CodeUnit :=
  match u.emit r.op r.operands with
  | .ok (offset, u') => (.ok offset, u')
  | .error e => (.error e, u)

/-- **A history of attempts**: their results in order, and the unit at the end. -/
def CodeUnit.attemptAll (u : CodeUnit) : List RawInstr → List (Except InstrError Nat) × CodeUnit
  | [] => ([], u)
  | r :: rest =>
    let (result, next) := u.attempt r
    let (results, final) := next.attemptAll rest
    (result :: results, final)

/-- The attempts of a history whose result is an offset. -/
def successful (raws : List RawInstr) (results : List (Except InstrError Nat)) : List RawInstr :=
  ((raws.zip results).filter fun entry => entry.2.isOk).map Prod.fst

/-- **A refused attempt** fails with its error and changes nothing. -/
theorem CodeUnit.attempt_of_refused {r : RawInstr} {e : InstrError} (h : r.Refused e)
    (u : CodeUnit) :
    u.attempt r = (.error e, u) := by
  rw [CodeUnit.attempt, CodeUnit.emit, (Instr.ofOperands_eq_error_iff r e).mpr h]
  rfl

/-- **Any other attempt** appends an instruction at the end of the code. -/
theorem CodeUnit.exists_attempt_eq {r : RawInstr} (h : ¬ ∃ e, r.Refused e) :
    ∃ i : Instr, i.raw = r ∧
      ∀ u : CodeUnit, u.attempt r = (.ok u.code.length, { u with code := u.code ++ i.encode }) := by
  cases hmade : Instr.ofOperands r.op r.operands with
  | error e => exact absurd ⟨e, (Instr.ofOperands_eq_error_iff r e).mp hmade⟩ h
  | ok i =>
    refine ⟨i, Instr.raw_of_ofOperands hmade, ?_⟩
    intro u
    rw [CodeUnit.attempt, CodeUnit.emit, hmade]
    rfl

/-- An attempt fails exactly when it is refused. -/
theorem CodeUnit.attempt_eq_error_iff (u : CodeUnit) (r : RawInstr) (e : InstrError) :
    (u.attempt r).1 = .error e ↔ r.Refused e := by
  by_cases hrefused : ∃ e, r.Refused e
  · obtain ⟨e', he'⟩ := hrefused
    rw [CodeUnit.attempt_of_refused he', ← Instr.ofOperands_eq_error_iff,
      (Instr.ofOperands_eq_error_iff r e').mpr he']
    simp
  · obtain ⟨i, -, happend⟩ := CodeUnit.exists_attempt_eq hrefused
    rw [happend]
    refine iff_of_false ?_ fun he => hrefused ⟨e, he⟩
    intro herror
    cases herror

/-- **What a successful attempt does**: it tells where the code ended, and appends the bytes of its
instruction. -/
theorem CodeUnit.exists_encode_of_attempt {u : CodeUnit} {r : RawInstr} {offset : Nat}
    (h : (u.attempt r).1 = .ok offset) :
    offset = u.code.length ∧ ∃ bytes, r.encode = .ok bytes ∧
      (u.attempt r).2.code = u.code ++ bytes := by
  by_cases hrefused : ∃ e, r.Refused e
  · obtain ⟨e, he⟩ := hrefused
    rw [CodeUnit.attempt_of_refused he] at h
    cases h
  · obtain ⟨i, rfl, happend⟩ := CodeUnit.exists_attempt_eq hrefused
    rw [happend] at h ⊢
    cases h
    exact ⟨rfl, i.encode, RawInstr.encode_raw i, rfl⟩

/-! ## Histories -/

/-- A history of one attempt and others. -/
theorem CodeUnit.attemptAll_cons (u : CodeUnit) (r : RawInstr) (rest : List RawInstr) :
    u.attemptAll (r :: rest)
      = ((u.attempt r).1 :: ((u.attempt r).2.attemptAll rest).1,
        ((u.attempt r).2.attemptAll rest).2) :=
  rfl

/-- A history goes on from the unit that its first part leaves. -/
theorem CodeUnit.attemptAll_append (u : CodeUnit) (first second : List RawInstr) :
    u.attemptAll (first ++ second)
      = ((u.attemptAll first).1 ++ ((u.attemptAll first).2.attemptAll second).1,
          ((u.attemptAll first).2.attemptAll second).2) := by
  induction first generalizing u with
  | nil => rfl
  | cons r rest ih => rw [List.cons_append, attemptAll_cons, ih, attemptAll_cons, List.cons_append]

/-- Every attempt of a history has a result. -/
theorem CodeUnit.length_attemptAll (u : CodeUnit) (raws : List RawInstr) :
    (u.attemptAll raws).1.length = raws.length := by
  induction raws generalizing u with
  | nil => rfl
  | cons r rest ih => rw [attemptAll_cons, List.length_cons, List.length_cons, ih]

/-- **The code after a history** is that before it and the instructions of the successful
attempts. -/
theorem CodeUnit.exists_instrs_of_attemptAll (u : CodeUnit) (raws : List RawInstr) :
    ∃ instrs : List Instr, instrs.map Instr.raw = successful raws (u.attemptAll raws).1 ∧
      (u.attemptAll raws).2.code = u.code ++ encodeAll instrs := by
  induction raws generalizing u with
  | nil => exact ⟨[], rfl, (List.append_nil _).symm⟩
  | cons r rest ih =>
    rw [attemptAll_cons]
    by_cases hrefused : ∃ e, r.Refused e
    · obtain ⟨e, he⟩ := hrefused
      rw [CodeUnit.attempt_of_refused he]
      exact ih u
    · obtain ⟨i, hraw, happend⟩ := CodeUnit.exists_attempt_eq hrefused
      rw [happend]
      obtain ⟨instrs, hinstrs, hcode⟩ := ih { u with code := u.code ++ i.encode }
      refine ⟨i :: instrs, ?_, ?_⟩
      · rw [List.map_cons, hraw, hinstrs]
        rfl
      · rw [hcode, encodeAll_cons, List.append_assoc]

/-- The result of an attempt in a history is that of the attempt on the unit before it. -/
theorem CodeUnit.getElem?_attemptAll (u : CodeUnit) (before : List RawInstr) (r : RawInstr)
    (after : List RawInstr) :
    (u.attemptAll (before ++ r :: after)).1[before.length]?
      = some ((u.attemptAll before).2.attempt r).1 := by
  have hlength := u.length_attemptAll before
  rw [attemptAll_append, List.getElem?_append_right (Nat.le_of_eq hlength), hlength, Nat.sub_self,
    attemptAll_cons]
  rfl

/-- The unit after one more attempt. -/
theorem CodeUnit.attemptAll_concat (u : CodeUnit) (before : List RawInstr) (r : RawInstr) :
    (u.attemptAll (before ++ [r])).2 = ((u.attemptAll before).2.attempt r).2 := by
  rw [attemptAll_append]
  rfl

/-- A history only adds to the code. -/
theorem CodeUnit.code_prefix_attemptAll (u : CodeUnit) (first second : List RawInstr) :
    (u.attemptAll first).2.code <+: (u.attemptAll (first ++ second)).2.code := by
  obtain ⟨instrs, -, hcode⟩ := (u.attemptAll first).2.exists_instrs_of_attemptAll second
  rw [attemptAll_append, hcode]
  exact List.prefix_append _ _

/-- **The outcome of a history of attempts**, from the empty unit on. Each attempt has a result. It
is an error exactly when the number of operands is not that of the opcode or an operand does not fit
in its width; which error it is says `RawInstr.Refused`, and the code stays as it is. Otherwise the
attempt appends the bytes of its instruction and tells the offset at which they start and at which
they stay. In the end the code consists of the encodings of the successful attempts, in order, and
it can be listed, with one line for each of them that shows its opcode and its operands. -/
theorem attemptAll_outcome (raws : List RawInstr) :
    let results := (CodeUnit.empty.attemptAll raws).1
    let code := (CodeUnit.empty.attemptAll raws).2.code
    results.length = raws.length ∧
    (∀ before r after, raws = before ++ r :: after →
      let codeBefore := (CodeUnit.empty.attemptAll before).2.code
      let codeAfter := (CodeUnit.empty.attemptAll (before ++ [r])).2.code
      ((∃ e, results[before.length]? = some (.error e)) ↔
        r.operands.length ≠ r.op.layout.widths.length ∨
          ∃ field ∈ r.fields, Nat.pow 2 (8 * field.2) ≤ field.1) ∧
      (∀ e, results[before.length]? = some (.error e) → r.Refused e ∧ codeAfter = codeBefore) ∧
      (∀ offset, results[before.length]? = some (.ok offset) →
        offset = codeBefore.length ∧
          ∃ bytes, r.encode = .ok bytes ∧ codeAfter = codeBefore ++ bytes ∧ codeAfter <+: code)) ∧
    (∃ chunks, (successful raws results).mapM RawInstr.encode = .ok chunks ∧
      code = chunks.flatten) ∧
    listCode code = .ok (joinLines ((successful raws results).map RawInstr.line)) := by
  intro results code
  obtain ⟨instrs, hinstrs, hcode⟩ := CodeUnit.empty.exists_instrs_of_attemptAll raws
  have hcode' : code = encodeAll instrs := hcode
  refine ⟨CodeUnit.empty.length_attemptAll raws, ?_, ?_, ?_⟩
  · rintro before r after rfl
    have hresult : results[before.length]? = _ := CodeUnit.empty.getElem?_attemptAll before r after
    have hcodeAfter := CodeUnit.code_prefix_attemptAll .empty (before ++ [r]) after
    rw [List.append_assoc, List.singleton_append] at hcodeAfter
    simp only [hresult, CodeUnit.attemptAll_concat, Option.some.injEq] at hcodeAfter ⊢
    generalize (CodeUnit.empty.attemptAll before).2 = u at hcodeAfter ⊢
    refine ⟨?_, ?_, ?_⟩
    · rw [← RawInstr.exists_refused_iff]
      exact exists_congr fun e => u.attempt_eq_error_iff r e
    · intro e he
      have hrefused := (u.attempt_eq_error_iff r e).mp he
      rw [CodeUnit.attempt_of_refused hrefused]
      exact ⟨hrefused, rfl⟩
    · intro offset hoffset
      obtain ⟨hstart, bytes, hbytes, hafter⟩ := CodeUnit.exists_encode_of_attempt hoffset
      exact ⟨hstart, bytes, hbytes, hafter, hcodeAfter⟩
  · refine ⟨instrs.map Instr.encode, ?_, ?_⟩
    · rw [← hinstrs, RawInstr.mapM_encode_raw]
    · rw [hcode', encodeAll, List.flatMap_def]
  · rw [hcode', listCode_encodeAll, ← hinstrs, List.map_map]
    rfl

/-- Four attempts, the second and the last of which are successful: an operation with an operand and
an index of more than two bytes are refused and leave no trace in the code. -/
theorem attemptAll_outcome_two_refused :
    let raws : List RawInstr :=
      [⟨.arith .add, [1]⟩, ⟨.constant, [300]⟩, ⟨.constant, [70000]⟩, ⟨.arith .divide, []⟩]
    let results : List (Except InstrError Nat) := [.error (.operandCount (.arith .add) 0 1), .ok 0,
      .error (.operandOverflow .constant 70000 2), .ok 3]
    CodeUnit.empty.attemptAll raws = (results, ⟨[0x01, 0x01, 0x2c, 0x12], #[]⟩) ∧
      RawInstr.Refused ⟨.constant, [70000]⟩ (.operandOverflow .constant 70000 2) ∧
      listCode [0x01, 0x01, 0x2c, 0x12] = .ok "Constant 300\nDivide" := by
  intro raws results
  have hhistory : CodeUnit.empty.attemptAll raws = (results, ⟨[0x01, 0x01, 0x2c, 0x12], #[]⟩) := rfl
  have hthird :=
    ((attemptAll_outcome raws).2.1 [⟨.arith .add, [1]⟩, ⟨.constant, [300]⟩] _ _ rfl).2.1 _ rfl
  exact ⟨hhistory, hthird.1, (attemptAll_outcome raws).2.2.2⟩

end StackMachine
