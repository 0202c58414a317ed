import StackMachine.Node.Build
import StackMachine.Proofs.Compile.FirstDefect

/-! # Programs one behind the other

The unit of two programs, one behind the other, can be put together from their units: the constants
of the second come behind those of the first, and each of its loads moves by the number of constants
in front of it. Nothing else in the code changes. A program that has no unit keeps its error with
anything behind it; in front of it, a program can at most fill the pool before the error is met.

* **`relocate shift code`** — the code with every load moved by `shift`; `Assembled.relocate_eq`
  says that the code of a post-order is moved to the code of the same post-order behind other
  literals.
* **`append_cases`** — what becomes of a program behind one that compiles.
* **`linkCode`** — the code of units one behind the other, and `compile_append_flatten` the
  compilation of programs one behind the other.
* **`compile_append`** — the compilation of two programs, and of the statements of a block. -/

namespace StackMachine

/-! ## Moving the loads of code -/

/-- An instruction with its operand moved by `shift`; an index that does not fit any more is
refused. -/
def Instr.relocate (shift : Nat) : Instr → Except InstrError Instr
  | .load index => Instr.ofOperands .constant [index.toNat + shift]
  | .apply op => .ok (.apply op)

/-- **Relocated code**: the instructions that the bytes hold, with every load moved by `shift`, in
bytes again. Bytes that cannot be decoded to the end have no relocation. -/
def relocate (shift : Nat) (code : List UInt8) : Except InstrError (List UInt8) :=
  match (decode code).stop.error? with
  | some e => .error e
  | none => (((decode code).instrs.map Located.instr).mapM (Instr.relocate shift)).map encodeAll

/-- Relocation of encoded instructions works on the instructions. -/
theorem relocate_encodeAll (shift : Nat) (instrs : List Instr) :
    relocate shift (encodeAll instrs) = (instrs.mapM (Instr.relocate shift)).map encodeAll := by
  rw [relocate, decode_encodeAll, locate, map_instr_locateFrom]
  rfl

/-- A load is moved as long as its index fits. -/
theorem Instr.relocate_load {index shift : Nat} (h : index + shift ≤ maxIndex) :
    (Instr.load (UInt16.ofNat index)).relocate shift
      = .ok (.load (UInt16.ofNat (index + shift))) := by
  have hindex : (UInt16.ofNat index).toNat = index := toNat_ofNat_of_le_maxIndex (by omega)
  have hfits : index + shift < UInt16.size := Nat.lt_succ_of_le h
  rw [Instr.relocate, hindex, Instr.ofOperands, if_pos hfits]

/-- **Moving the instructions of a post-order** numbers its literals from further on. -/
theorem mapM_relocate_assemble {start shift : Nat} {items : List PostItem}
    (h : start + shift + (literals items).length ≤ maxIndex + 1) :
    (assemble start items).mapM (Instr.relocate shift) = .ok (assemble (start + shift) items) := by
  induction items generalizing start with
  | nil => rfl
  | cons item rest ih =>
    cases item with
    | literal v =>
      rw [literals, List.length_cons] at h
      have hrest : (assemble (start + 1) rest).mapM (Instr.relocate shift)
          = .ok (assemble (start + 1 + shift) rest) :=
        ih (by omega)
      rw [assemble, assemble, List.mapM_cons, Instr.relocate_load (by omega), hrest,
        Nat.add_right_comm]
      rfl
    | operator op =>
      have hrest := ih h
      rw [assemble, assemble]
      cases op.arith? with
      | none => exact hrest
      | some operation =>
        simp only [List.mapM_cons, hrest]
        rfl
    | other kind => exact ih h

/-- **The code of a unit is moved behind other constants**, as long as both pools together fit. -/
theorem Assembled.relocate_eq {items : List PostItem} {u : CodeUnit} (h : Assembled items u)
    {shift : Nat} (hfits : shift + (literals items).length ≤ maxIndex + 1) :
    relocate shift u.code = .ok (encodeAll (assemble shift items)) := by
  have hmoved : (assemble 0 items).mapM (Instr.relocate shift) = .ok (assemble (0 + shift) items) :=
    mapM_relocate_assemble (by omega)
  rw [h.code_eq, relocate_encodeAll, hmoved, Nat.zero_add]
  rfl

/-! ## Two programs -/

/-- The items of an assembled unit are acceptable. -/
theorem Assembled.acceptable {items : List PostItem} {u : CodeUnit} (h : Assembled items u) :
    Acceptable items :=
  ⟨h.hasCode, h.length_literals_le⟩

/-- The last items of acceptable ones are acceptable. -/
theorem Acceptable.of_append {first second : List PostItem} (h : Acceptable (first ++ second)) :
    Acceptable second := by
  have hfits := h.length_literals_le
  rw [literals_append, List.length_append] at hfits
  exact ⟨fun item hmem => h.hasCode item (List.mem_append_right first hmem), by omega⟩

/-- **What fails keeps its error** with anything behind it. -/
theorem compile_append_of_error {first : List Node} {e : CompileError}
    (h : compile first = .error e) (second : List Node) : compile (first ++ second) = .error e := by
  rw [compile_eq_emitAll] at h
  rw [compile_eq_emitAll, Node.postorderAll_append, Draft.emitAll_append]
  rcases hwalk : Draft.empty.emitAll (Node.postorderAll first) with ⟨d, _ | cause⟩
  · rw [hwalk] at h
    cases h
  · rw [hwalk] at h
    exact h

/-- **A program behind one that compiles**: both together are acceptable, or the error is that of
the second program, or the pool is full before the second program is done. -/
theorem append_cases {first : List Node} {u : CodeUnit} (hu : compile first = .ok u)
    (second : List Node) :
    Acceptable (Node.postorderAll first ++ Node.postorderAll second) ∨
    (∃ e, compile second = .error e ∧ compile (first ++ second) = .error e) ∨
    (compile (first ++ second) = .error (.poolOverflow 65536 65535) ∧
      65536 < u.pool.size + (literals (Node.postorderAll second)).length) := by
  have hassembled := assembled_of_compile hu
  rcases acceptable_or_defect hassembled.acceptable (Node.postorderAll second) with haccept | hfound
  · exact Or.inl haccept
  obtain ⟨prior, item, after, e, hsecond, hprior, hdefect⟩ := hfound
  have hwhole : compile (first ++ second) = .error e := by
    rw [compile_eq_emitAll, Node.postorderAll_append, hsecond, ← List.append_assoc,
      emitAll_of_isDefect hprior hdefect]
    rfl
  -- a defect of the second program alone, unless it is the pool of both that is full
  have halone : IsDefect prior item e →
      ∃ e, compile second = .error e ∧ compile (first ++ second) = .error e := by
    intro hitem
    refine ⟨e, ?_, hwhole⟩
    rw [compile_eq_emitAll, hsecond, emitAll_of_isDefect hprior.of_append hitem]
    rfl
  cases hdefect with
  | node kind => exact Or.inr (Or.inl (halone (.node prior kind)))
  | operator hop => exact Or.inr (Or.inl (halone (.operator prior hop)))
  | literal hfull v =>
    refine Or.inr (Or.inr ⟨hwhole, ?_⟩)
    rw [literals_append, List.length_append] at hfull
    rw [hsecond, hassembled.pool_eq, List.size_toArray, literals_append, List.length_append,
      literals, List.length_cons]
    omega

section Append

variable {first second : List Node} {u w : CodeUnit}

/-- **Two programs that compile, with constants that fit in one pool**, compile together: the code
of the second is moved behind the constants of the first. -/
theorem compile_append_of_fits (hu : compile first = .ok u) (hw : compile second = .ok w)
    (hfits : u.pool.size + w.pool.size ≤ 65536) :
    ∃ moved, relocate u.pool.size w.code = .ok moved ∧
      compile (first ++ second) = .ok ⟨u.code ++ moved, u.pool ++ w.pool⟩ := by
  have hfirst := assembled_of_compile hu
  have hsecond := assembled_of_compile hw
  rw [hfirst.pool_eq, hsecond.pool_eq, List.size_toArray, List.size_toArray] at hfits
  have haccept : Acceptable (Node.postorderAll (first ++ second)) := by
    rw [Node.postorderAll_append]
    refine ⟨?_, ?_⟩
    · intro item hmem
      exact (List.mem_append.mp hmem).elim (hfirst.hasCode item) (hsecond.hasCode item)
    · rw [literals_append, List.length_append]
      exact hfits
  refine ⟨_, hsecond.relocate_eq ?_, ?_⟩
  · rw [hfirst.pool_eq, List.size_toArray]
    exact hfits
  · rw [compile_of_acceptable haccept, Node.postorderAll_append, assemble_append, encodeAll_append,
      literals_append, hfirst.code_eq, hfirst.pool_eq, hsecond.pool_eq, List.size_toArray,
      Nat.zero_add, List.append_toArray]

/-- **Two programs that compile, with too many constants for one pool**, overflow it. -/
theorem compile_append_of_overflow (hu : compile first = .ok u) (hw : compile second = .ok w)
    (hover : 65536 < u.pool.size + w.pool.size) :
    compile (first ++ second) = .error (.poolOverflow 65536 65535) := by
  rcases append_cases hu second with haccept | ⟨e, herror, -⟩ | ⟨hfull, -⟩
  · have hfits := haccept.length_literals_le
    rw [(assembled_of_compile hu).pool_eq, (assembled_of_compile hw).pool_eq, List.size_toArray,
      List.size_toArray, ← List.length_append, ← literals_append] at hover
    exact absurd hover (Nat.not_lt_of_le hfits)
  · rw [hw] at herror
    cases herror
  · exact hfull

/-- **A program that fails behind one that compiles** fails with its own error, unless the pool is
full before. -/
theorem compile_append_of_second_error {e : CompileError} (hu : compile first = .ok u)
    (he : compile second = .error e) :
    compile (first ++ second) = .error e ∨
      (compile (first ++ second) = .error (.poolOverflow 65536 65535) ∧
        65536 < u.pool.size + (literals (Node.postorderAll second)).length) := by
  rcases append_cases hu second with haccept | ⟨e', herror, hwhole⟩ | hfull
  · rw [compile_of_acceptable haccept.of_append] at he
    cases he
  · rw [he] at herror
    cases herror
    exact Or.inl hwhole
  · exact Or.inr hfull

end Append

/-! ## Any number of programs -/

/-- **The code of units one behind the other**: each is moved behind the constants before it, of
which there are `start` in front of the first. -/
def linkCode (start : Nat) : List CodeUnit → Except InstrError (List UInt8)
  | [] => .ok []
  | u :: rest => do
    let moved ← relocate start u.code
    let others ← linkCode (start + u.pool.size) rest
    return moved ++ others

/-- The constants of units one behind the other. -/
def linkPool (units : List CodeUnit) : List Value := units.flatMap fun u => u.pool.toList

/-- The constants of the first unit come before those of the others. -/
theorem toArray_linkPool_cons (u : CodeUnit) (rest : List CodeUnit) :
    (linkPool (u :: rest)).toArray = u.pool ++ (linkPool rest).toArray := by
  rw [linkPool, List.flatMap_cons, ← List.append_toArray, Array.toArray_toList]
  rfl

/-- Programs that all compile: the first one does, and so do the others. -/
theorem mapM_compile_cons_eq_ok {part : List Node} {parts : List (List Node)}
    {units : List CodeUnit} (h : (part :: parts).mapM compile = .ok units) :
    ∃ w rest, compile part = .ok w ∧ parts.mapM compile = .ok rest ∧ units = w :: rest := by
  rw [List.mapM_cons] at h
  cases hpart : compile part with
  | error e =>
    rw [hpart] at h
    cases h
  | ok w =>
    cases hparts : parts.mapM compile with
    | error e =>
      rw [hpart, hparts] at h
      cases h
    | ok rest =>
      rw [hpart, hparts] at h
      cases h
      exact ⟨w, rest, rfl, rfl, rfl⟩

/-- Programs of which one does not compile: the first one does not, or it does and one of the others
does not. -/
theorem mapM_compile_cons_eq_error {part : List Node} {parts : List (List Node)} {e : CompileError}
    (h : (part :: parts).mapM compile = .error e) :
    compile part = .error e ∨ ∃ w, compile part = .ok w ∧ parts.mapM compile = .error e := by
  rw [List.mapM_cons] at h
  cases hpart : compile part with
  | error e' =>
    rw [hpart] at h
    cases h
    exact Or.inl rfl
  | ok w =>
    cases hparts : parts.mapM compile with
    | error e' =>
      rw [hpart, hparts] at h
      cases h
      exact Or.inr ⟨w, rfl, rfl⟩
    | ok rest =>
      rw [hpart, hparts] at h
      cases h

/-- **Programs that compile, behind one that compiles**, are linked if their constants fit in one
pool, and overflow it otherwise. -/
theorem compile_append_flatten {first : List Node} {u : CodeUnit} (hu : compile first = .ok u)
    {parts : List (List Node)} {units : List CodeUnit} (h : parts.mapM compile = .ok units) :
    (u.pool.size + (linkPool units).length ≤ 65536 →
      ∃ code, linkCode u.pool.size units = .ok code ∧
        compile (first ++ parts.flatten)
          = .ok ⟨u.code ++ code, u.pool ++ (linkPool units).toArray⟩) ∧
    (65536 < u.pool.size + (linkPool units).length →
      compile (first ++ parts.flatten) = .error (.poolOverflow 65536 65535)) := by
  induction parts generalizing first u units with
  | nil =>
    cases h
    have hsize := (assembled_of_compile hu).length_literals_le
    rw [← List.size_toArray, ← (assembled_of_compile hu).pool_eq] at hsize
    refine ⟨fun _ => ⟨[], rfl, ?_⟩, fun hover => absurd hover (Nat.not_lt_of_le hsize)⟩
    simpa [linkPool] using hu
  | cons part parts ih =>
    obtain ⟨w, rest, hw, hrest, rfl⟩ := mapM_compile_cons_eq_ok h
    have hlength : (linkPool (w :: rest)).length = w.pool.size + (linkPool rest).length := by
      simp [linkPool]
    rw [hlength, ← Nat.add_assoc, List.flatten_cons, ← List.append_assoc]
    by_cases hpart : u.pool.size + w.pool.size ≤ 65536
    · -- the first of the programs joins the one in front
      obtain ⟨moved, hmoved, hboth⟩ := compile_append_of_fits hu hw hpart
      obtain ⟨hlinked, hover⟩ := ih hboth hrest
      rw [Array.size_append] at hlinked hover
      refine ⟨?_, hover⟩
      intro hfits
      obtain ⟨others, hothers, hcompile⟩ := hlinked hfits
      refine ⟨moved ++ others, ?_, ?_⟩
      · rw [linkCode, hmoved, hothers]
        rfl
      · rw [hcompile, toArray_linkPool_cons, List.append_assoc, Array.append_assoc]
    · have hfull := compile_append_of_overflow hu hw (Nat.lt_of_not_le hpart)
      exact ⟨fun hfits => by omega, fun _ => compile_append_of_error hfull _⟩

/-- **Programs of which one does not compile, behind one that compiles**, fail with the error of the
first that does not, unless the pool is full before. -/
theorem compile_append_flatten_of_error {first : List Node} {u : CodeUnit}
    (hu : compile first = .ok u) {parts : List (List Node)} {e : CompileError}
    (h : parts.mapM compile = .error e) :
    compile (first ++ parts.flatten) = .error e ∨
      compile (first ++ parts.flatten) = .error (.poolOverflow 65536 65535) := by
  induction parts generalizing first u with
  | nil => cases h
  | cons part parts ih =>
    rw [List.flatten_cons, ← List.append_assoc]
    rcases mapM_compile_cons_eq_error h with hpart | ⟨w, hw, hparts⟩
    · rcases compile_append_of_second_error hu hpart with herror | ⟨hfull, -⟩
      · exact Or.inl (compile_append_of_error herror _)
      · exact Or.inr (compile_append_of_error hfull _)
    · by_cases hfits : u.pool.size + w.pool.size ≤ 65536
      · obtain ⟨moved, -, hboth⟩ := compile_append_of_fits hu hw hfits
        exact ih hboth hparts
      · have hfull := compile_append_of_overflow hu hw (Nat.lt_of_not_le hfits)
        exact Or.inr (compile_append_of_error hfull _)

/-- The empty program compiles to the empty unit. -/
theorem compile_nil : compile [] = .ok CodeUnit.empty := by
  rw [compile_eq_emitAll]
  rfl

/-- **Compilation of programs one behind the other.** Two programs that compile give one unit, if
their constants fit in one pool: the constants of the first and then of the second, the code of the
first and then that of the second with every load moved behind the constants of the first. If the
constants do not fit, the pool overflows. If the first program does not compile, its error is that
of both; if only the second one does not, its error is, unless the pool is full before. The same
holds of the statements of a block, on top and in each group of its body. -/
theorem compile_append (first second : List Node) :
    (∀ u w, compile first = .ok u → compile second = .ok w →
      (u.pool.size + w.pool.size ≤ 65536 →
        ∃ moved, relocate u.pool.size w.code = .ok moved ∧
          compile (first ++ second) = .ok ⟨u.code ++ moved, u.pool ++ w.pool⟩) ∧
      (65536 < u.pool.size + w.pool.size →
        compile (first ++ second) = .error (.poolOverflow 65536 65535))) ∧
    (∀ e, compile first = .error e → compile (first ++ second) = .error e) ∧
    (∀ u e, compile first = .ok u → compile second = .error e →
      compile (first ++ second) = .error e ∨
        (compile (first ++ second) = .error (.poolOverflow 65536 65535) ∧
          65536 < u.pool.size + (literals (Node.block second).postorder).length)) ∧
    ∀ top body,
      (∀ units, (top :: body).mapM compile = .ok units →
        ((linkPool units).length ≤ 65536 →
          ∃ code, linkCode 0 units = .ok code ∧
            compile (Node.statements top body) = .ok ⟨code, (linkPool units).toArray⟩) ∧
        (65536 < (linkPool units).length →
          compile (Node.statements top body) = .error (.poolOverflow 65536 65535))) ∧
      (∀ e, compile top = .error e → compile (Node.statements top body) = .error e) ∧
      (∀ u e, compile top = .ok u → body.mapM compile = .error e →
        compile (Node.statements top body) = .error e ∨
          compile (Node.statements top body) = .error (.poolOverflow 65536 65535)) := by
  refine ⟨?_, ?_, ?_, ?_⟩
  · intro u w hu hw
    exact ⟨compile_append_of_fits hu hw, compile_append_of_overflow hu hw⟩
  · intro e he
    exact compile_append_of_error he second
  · intro u e hu he
    exact compile_append_of_second_error hu he
  · intro top body
    refine ⟨?_, ?_, ?_⟩
    · intro units hunits
      -- all statements stand behind the empty program
      have hflatten := compile_append_flatten compile_nil hunits
      simpa [CodeUnit.empty, Node.statements] using hflatten
    · intro e he
      exact compile_append_of_error he body.flatten
    · intro u e hu he
      exact compile_append_flatten_of_error hu he

/-- A block of a text on top and of two groups: the loads of each group are moved behind the
constants before it. -/
theorem compile_append_two_groups :
    let top : List Node := [.text "a"]
    let body : List (List Node) := [[.binary (.text "b") .plus (.text "c")], [.text "d"]]
    let units : List CodeUnit := [⟨encodeAll [.load 0], #[.text "a"]⟩,
      ⟨encodeAll [.load 0, .load 1, .apply .add], #[.text "b", .text "c"]⟩,
      ⟨encodeAll [.load 0], #[.text "d"]⟩]
    (top :: body).mapM compile = .ok units ∧
      compile (Node.statements top body)
        = .ok ⟨encodeAll [.load 0, .load 1, .load 2, .apply .add, .load 3],
        #[.text "a", .text "b", .text "c", .text "d"]⟩ := by
  intro top body units
  have hunits : (top :: body).mapM compile = .ok units := by
    rw [funext compile_eq_emitAll]
    rfl
  have hlinked : linkCode 0 units
      = .ok (encodeAll [.load 0, .load 1, .load 2, .apply .add, .load 3]) := rfl
  obtain ⟨code, hcode, hcompile⟩ :=
    (((compile_append [] []).2.2.2 top body).1 units hunits).1 (by decide)
  rw [hlinked] at hcode
  cases hcode
  exact ⟨hunits, hcompile⟩

end StackMachine
