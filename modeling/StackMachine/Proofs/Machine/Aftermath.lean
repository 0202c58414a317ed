import StackMachine.Proofs.Machine.Trace

/-! # What a fault leaves behind

A run that fails has executed all instructions before the one that fails, so the code before it
halts on its own. What the fault leaves of the values there depends only on the byte at which the
run fails: an operation takes its operands off before it can fail, as many of them as there are, and
everything else fails before it touches the stack.

* **`FailsOn pool capacity offset live byte`** — all the ways in which a run can fail at the byte at
  `offset`, with the values `live` on the stack.
* **`CodeUnit.exists_failsOn`** — a run that fails does so at one byte, and the code before this
  byte halts.
* **`FailsOn.left_eq`** and **`FailsOn.left_eq_drop`** — what is left: everything, or everything
  below the operands.
* **`run_fault_leaves`** — the same of runs. -/

namespace StackMachine

/-! ## Failing at one byte -/

/-- **The ways to fail at a byte**: a run that gets to `byte` at `offset` with the values `live`
fails there with a fault and leaves some of the values. -/
inductive FailsOn (pool : Array Value) (capacity offset : Nat) (live : List Value) (byte : UInt8) :
    RuntimeError → List Value → Prop where
  /-- The instruction that starts there fails. -/
  | instr {i : Instr} {e : RuntimeError} {left : List Value}
      (hop : Opcode.ofByte? byte = some i.opcode)
      (h : Executes pool capacity i live (.fault e left)) :
      FailsOn pool capacity offset live byte e left
  /-- The byte is no opcode. -/
  | unknownOpcode (hop : Opcode.ofByte? byte = none) :
      FailsOn pool capacity offset live byte (.unknownOpcode byte offset) live
  /-- The instruction that starts there is incomplete, as only a load can be. -/
  | truncated (hop : Opcode.ofByte? byte = some .constant) :
      FailsOn pool capacity offset live byte (.truncatedInstruction offset) live

/-- **A traversal that fails does so at one byte**: the code before the byte halts, and the failure
is one that the byte allows on the values left there. -/
theorem CodeUnit.exists_failsOn {u : CodeUnit} {capacity : Nat} {e : RuntimeError}
    {left : List Value} (h : (u.traverse capacity).effect = .fault e left) :
    ∃ offset byte live, u.code[offset]? = some byte ∧
      HaltsWith (u.upTo offset) capacity live.reverse ∧
      (u.traverse capacity).faultSite? = some (offset, Opcode.ofByte? byte) ∧
      FailsOn u.pool capacity offset live byte e left := by
  obtain ⟨instrs, tail, hcode, hstuck, hdecode⟩ := exists_encodeAll_append_stuck u.code
  have htraverse : u.traverse capacity
      = (StackMachine.traverse u.pool capacity [] (locate instrs)).andThen
        (decode u.code).stop.conclude := by
    rw [CodeUnit.traverse, hdecode]
  rw [htraverse] at h ⊢
  cases heffect : (StackMachine.traverse u.pool capacity [] (locate instrs)).effect with
  | fault e' left' =>
    -- one of the complete instructions fails
    rw [Traversal.andThen_of_fault heffect] at h ⊢
    obtain ⟨first, item, rest, live, hsplit, hfirst, hfails, hsite⟩ := exists_executes_of_traverse h
    obtain ⟨before, i, after, rfl, rfl, rfl⟩ := exists_of_locateFrom_eq hsplit
    rw [Nat.zero_add] at hsite
    obtain ⟨byte, operands, hencode, hop⟩ := i.exists_encode_eq_cons
    have hbefore : u.code = encodeAll before ++ byte :: (operands ++ encodeAll after ++ tail) := by
      rw [hcode, encodeAll_append, encodeAll_cons, hencode]
      simp
    rw [← hop] at hsite
    exact ⟨(encodeAll before).length, byte, live, by simp [hbefore],
      CodeUnit.haltsWith_upTo hbefore hfirst, hsite, .instr hop hfails⟩
  | next live =>
    -- they all go on, and decoding stopped behind them
    have hhalts := CodeUnit.haltsWith_upTo hcode heffect
    generalize (decode u.code).stop = stop at hstuck h ⊢
    rw [Traversal.effect_andThen heffect] at h
    cases hstuck with
    | done => cases h
    | @unknownOpcode byte hnone rest =>
      cases h
      refine ⟨(encodeAll instrs).length, byte, left, by simp [hcode], hhalts, ?_,
        .unknownOpcode hnone⟩
      rw [hnone]
      exact faultSite?_andThen heffect rfl
    | @truncated rest hshort =>
      cases h
      have hop : Opcode.ofByte? Opcode.constant.byte = some .constant :=
        Opcode.ofByte?_byte .constant
      refine ⟨(encodeAll instrs).length, Opcode.constant.byte, left, by simp [hcode], hhalts, ?_,
        .truncated hop⟩
      rw [hop]
      exact faultSite?_andThen heffect rfl

/-! ## What is left -/

section Left

variable {pool : Array Value} {capacity offset : Nat} {live left : List Value} {byte : UInt8}
  {e : RuntimeError}

/-- **At a byte other than an operation all values are left**, and the fault is one of code or of a
full stack. -/
theorem FailsOn.left_eq (h : FailsOn pool capacity offset live byte e left)
    (hbyte : ∀ op, Opcode.ofByte? byte ≠ some (.arith op)) :
    left = live ∧ (e = .unknownOpcode byte offset ∨ e = .truncatedInstruction offset ∨
      (∃ index, e = .constantOutOfRange index pool.size) ∨ e = .stackOverflow capacity) := by
  cases h with
  | unknownOpcode hop => exact ⟨rfl, Or.inl rfl⟩
  | truncated hop => exact ⟨rfl, Or.inr (Or.inl rfl)⟩
  | @instr i e left hop hfails =>
    cases hfails with
    | outOfRange hindex => exact ⟨rfl, Or.inr (Or.inr (Or.inl ⟨_, rfl⟩))⟩
    | overflow hv hfull => exact ⟨rfl, Or.inr (Or.inr (Or.inr rfl))⟩
    | operands he => exact absurd hop (hbyte _)
    | underflow hfew => exact absurd hop (hbyte _)

/-- **At an operation two values are gone**, or all if there are fewer; with fewer than two the
fault is an underflow, and otherwise it is one of the operands. -/
theorem FailsOn.left_eq_drop (h : FailsOn pool capacity offset live byte e left) {op : Arith}
    (hbyte : Opcode.ofByte? byte = some (.arith op)) :
    left = live.drop 2 ∧
      (e = .stackUnderflow ∧ live.length < 2 ∨ OperandFault e ∧ 2 ≤ live.length) := by
  cases h with
  | unknownOpcode hop =>
    rw [hbyte] at hop
    cases hop
  | truncated hop =>
    rw [hbyte] at hop
    cases hop
  | @instr i e left hop hfails =>
    rw [hbyte] at hop
    cases hfails with
    | outOfRange hindex => cases hop
    | overflow hv hfull => cases hop
    | operands he => exact ⟨rfl, Or.inr ⟨operandFault_of_apply he, Nat.le_add_left 2 _⟩⟩
    | underflow hfew =>
      exact ⟨(List.drop_eq_nil_of_le (Nat.le_of_lt hfew)).symm, Or.inl ⟨rfl, hfew⟩⟩

end Left

/-! ## Runs that fail -/

/-- **What a fault leaves behind.** A run that fails does so at one byte of the code, and the code
before this byte halts on its own with some values. If the byte is not that of an operation, the
fault leaves these values as they are, and is that of a byte without opcode, of an incomplete
instruction, of a missing constant or of a full stack. If the byte is that of an operation, its
operands are gone: the topmost two values, or all with an underflow when there are fewer. The values
below them are left as they are. -/
theorem run_fault_leaves {u : CodeUnit} {capacity : Nat} {e : RuntimeError}
    (h : (Machine.load u capacity).run.result = .error e) :
    let r := (Machine.load u capacity).run
    ∃ offset byte values, r.faultSite? = some (offset, Opcode.ofByte? byte) ∧
      u.code[offset]? = some byte ∧ HaltsWith (u.upTo offset) capacity values ∧
      ((∀ op, Opcode.ofByte? byte ≠ some (.arith op)) →
        r.machine.stack.values = values ∧
          (e = .unknownOpcode byte offset ∨ e = .truncatedInstruction offset ∨
            (∃ index, e = .constantOutOfRange index u.pool.size) ∨ e = .stackOverflow capacity)) ∧
      ∀ op, Opcode.ofByte? byte = some (.arith op) →
        r.machine.stack.values = values.take (values.length - min 2 values.length) ∧
          (e = .stackUnderflow ∧ values.length < 2 ∨ OperandFault e ∧ 2 ≤ values.length) := by
  obtain ⟨left, heffect⟩ := Machine.result_run_load_eq_error_iff.mp h
  obtain ⟨offset, byte, live, hbyte, hhalts, hsite, hfails⟩ := CodeUnit.exists_failsOn heffect
  have hvalues : (Machine.load u capacity).run.machine.stack.values = left.reverse := by
    rw [Machine.run_load, Traversal.outcome, heffect]
    exact OperandStack.values_holding capacity left
  rw [← Machine.faultSite?_run_load] at hsite
  refine ⟨offset, byte, live.reverse, hsite, hbyte, hhalts, ?_, ?_⟩
  · intro hother
    obtain ⟨rfl, hkind⟩ := hfails.left_eq hother
    exact ⟨hvalues, hkind⟩
  · intro op hop
    obtain ⟨rfl, hkind⟩ := hfails.left_eq_drop hop
    have hcount : live.length - min 2 live.length = live.length - 2 := by omega
    rw [List.length_reverse]
    refine ⟨?_, hkind⟩
    rw [hvalues, List.reverse_drop, hcount]

/-- A subtraction of texts takes both of them off and leaves the value below; an addition takes the
only value off before it misses the other one. -/
theorem run_fault_leaves_below :
    let pool : Array Value := #[.text "a", .text "b"]
    let mismatch : CodeUnit := ⟨encodeAll [.load 0, .load 1, .load 0, .apply .subtract], pool⟩
    let lone : CodeUnit := ⟨encodeAll [.load 0, .apply .add], pool⟩
    (Machine.load mismatch 3).run.result = .error (.typeMismatch .subtract .text .text) ∧
      (Machine.load mismatch 3).run.machine.stack.values = [.text "a"] ∧
      (∃ values, HaltsWith (mismatch.upTo 9) 3 values ∧ 2 ≤ values.length ∧
        (Machine.load mismatch 3).run.machine.stack.values
          = values.take (values.length - min 2 values.length)) ∧
      (Machine.load lone 3).run.result = .error .stackUnderflow ∧
      (Machine.load lone 3).run.machine.stack.values = [] ∧
      ∃ values, HaltsWith (lone.upTo 3) 3 values ∧ values.length < 2 := by
  intro pool mismatch lone
  have hmismatch : (Machine.load mismatch 3).run.result
      = .error (.typeMismatch .subtract .text .text) := by
    decide +kernel
  have hbelow : (Machine.load mismatch 3).run.machine.stack.values = [.text "a"] := by
    decide +kernel
  have hlone : (Machine.load lone 3).run.result = .error .stackUnderflow := by decide +kernel
  have hnone : (Machine.load lone 3).run.machine.stack.values = [] := by decide +kernel
  have hsite : (Machine.load mismatch 3).run.faultSite? = some (9, some (.arith .subtract)) := by
    decide +kernel
  have hsite' : (Machine.load lone 3).run.faultSite? = some (3, some (.arith .add)) := by
    decide +kernel
  obtain ⟨offset, byte, values, hplace, -, hhalts, -, hleft⟩ := run_fault_leaves hmismatch
  obtain ⟨offset', byte', values', hplace', -, hhalts', -, hleft'⟩ := run_fault_leaves hlone
  simp only [hsite, Option.some.injEq, Prod.mk.injEq] at hplace
  simp only [hsite', Option.some.injEq, Prod.mk.injEq] at hplace'
  obtain ⟨rfl, hop⟩ := hplace
  obtain ⟨rfl, hop'⟩ := hplace'
  obtain ⟨hvalues, hunderflow | ⟨-, htwo⟩⟩ := hleft .subtract hop.symm
  · cases hunderflow.1
  obtain ⟨-, ⟨-, hfew⟩ | hoperands⟩ := hleft' .add hop'.symm
  · exact ⟨hmismatch, hbelow, ⟨values, hhalts, htwo, hvalues⟩, hlone, hnone, values', hhalts', hfew⟩
  · cases hoperands.1

end StackMachine
