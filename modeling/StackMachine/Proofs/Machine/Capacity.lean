import StackMachine.Proofs.Machine.Aftermath
import StackMachine.Proofs.Machine.SlotInvariant

/-! # The number of slots

How many slots a machine has shows in a single way: a load may find them all taken. A run that does
not end so does not change when there are more slots. A run that does has filled all its slots and
leaves them filled.

* **`Executes.effect_of_le`** and **`traverse_of_le`** — one instruction and many on more slots.
* **`CodeUnit.traverse_of_le`** — the same of whole units.
* **`FailsOn.of_stackOverflow`** — a stack overflows at a load, with all slots taken.
* **`run_capacity`** — runs on more slots, and runs that overflow. -/

namespace StackMachine

/-! ## More slots -/

section Larger

variable {pool : Array Value} {capacity larger : Nat} {live : List Value}

/-- **One instruction on more slots** does the same, unless it has found all slots taken. -/
theorem Executes.effect_of_le {i : Instr} {effect : Effect}
    (h : Executes pool capacity i live effect) (hle : capacity ≤ larger)
    (hroom : ∀ limit left, effect ≠ .fault (.stackOverflow limit) left) :
    i.effect pool larger live = effect := by
  cases h with
  | load hv hlt =>
    have hlarger : live.length < larger := Nat.lt_of_lt_of_le hlt hle
    simp only [Instr.effect, hv, if_pos hlarger]
  | overflow hv hfull => exact absurd rfl (hroom capacity live)
  | outOfRange hindex => simp only [Instr.effect, Array.getElem?_eq_none hindex]
  | apply hv => simp only [Instr.effect, hv]
  | operands he => simp only [Instr.effect, he]
  | underflow hfew =>
    rcases live with _ | ⟨right, _ | ⟨left, below⟩⟩
    · rfl
    · rfl
    · exact absurd hfew (Nat.not_lt_of_le (Nat.le_add_left 2 _))

/-- **Many instructions on more slots** do the same and log the same, unless one of them has found
all slots taken. -/
theorem traverse_of_le {items : List Located} (hle : capacity ≤ larger)
    (hroom : ∀ limit left, (traverse pool capacity live items).effect
      ≠ .fault (.stackOverflow limit) left) :
    traverse pool larger live items = traverse pool capacity live items := by
  induction items generalizing live with
  | nil => rfl
  | cons item rest ih =>
    rw [traverse] at hroom
    rw [traverse, traverse]
    have hexecutes := item.instr.executes_effect pool capacity live
    cases heffect : item.instr.effect pool capacity live with
    | fault e left =>
      rw [heffect] at hexecutes hroom
      rw [hexecutes.effect_of_le hle hroom, Traversal.andThen_fault, Traversal.andThen_fault]
    | next middle =>
      rw [heffect] at hexecutes hroom
      -- the others start on the same values, and none of them finds all slots taken
      have hnext : item.instr.effect pool larger live = .next middle :=
        hexecutes.effect_of_le hle (by simp)
      rw [hnext, Traversal.andThen_next, Traversal.andThen_next, ih hroom]

/-- **Units on more slots** are traversed in the same way, unless all slots were found taken. -/
theorem CodeUnit.traverse_of_le {u : CodeUnit} (hle : capacity ≤ larger)
    (hroom : ∀ limit left, (u.traverse capacity).effect ≠ .fault (.stackOverflow limit) left) :
    u.traverse larger = u.traverse capacity := by
  have hinstrs : StackMachine.traverse u.pool larger [] (decode u.code).instrs
      = StackMachine.traverse u.pool capacity [] (decode u.code).instrs := by
    refine StackMachine.traverse_of_le hle ?_
    intro limit left hover
    refine hroom limit left ?_
    rw [CodeUnit.traverse, Traversal.andThen_of_fault hover, hover]
  rw [CodeUnit.traverse, hinstrs, CodeUnit.traverse]

end Larger

/-! ## All slots taken -/

/-- **A stack overflows at a load**, on the values that it finds: the fault names the number of
slots, which they are not fewer than. -/
theorem FailsOn.of_stackOverflow {pool : Array Value} {capacity offset limit : Nat}
    {live left : List Value} {byte : UInt8}
    (h : FailsOn pool capacity offset live byte (.stackOverflow limit) left) :
    limit = capacity ∧ Opcode.ofByte? byte = some .constant ∧ left = live ∧
      capacity ≤ live.length := by
  cases h with
  | instr hop hfails =>
    cases hfails with
    | overflow hv hfull => exact ⟨rfl, hop, rfl, hfull⟩
    | operands he =>
      -- an operation finds room for its result, so it fails on its operands only
      have hoperands := operandFault_of_apply he
      cases hoperands

/-- A run leaves no more values than there are slots. -/
theorem Machine.length_values_run_load_le (u : CodeUnit) (capacity : Nat) :
    (Machine.load u capacity).run.machine.stack.values.length ≤ capacity := by
  have hsound : (Machine.load u capacity).run.machine.stack.Sound capacity :=
    (Machine.sound_afterRuns (OperandStack.sound_empty capacity) 1).2
  rw [hsound.length_values]
  exact Nat.le_trans hsound.height_le (Nat.le_of_eq hsound.size_slots)

/-! ## Runs on more slots -/

/-- A run that does not overflow gives the same on more slots. -/
theorem Machine.run_load_of_le {u : CodeUnit} {capacity larger : Nat} (hle : capacity ≤ larger)
    (hroom : ∀ limit, (Machine.load u capacity).run.result ≠ .error (.stackOverflow limit)) :
    (Machine.load u larger).run.result = (Machine.load u capacity).run.result ∧
      (Machine.load u larger).run.machine.phase = (Machine.load u capacity).run.machine.phase ∧
      (Machine.load u larger).run.machine.stack.values
        = (Machine.load u capacity).run.machine.stack.values ∧
      (Machine.load u larger).run.events = (Machine.load u capacity).run.events := by
  have htraverse : u.traverse larger = u.traverse capacity := by
    refine CodeUnit.traverse_of_le hle ?_
    intro limit left hover
    exact hroom limit (Machine.result_run_load_eq_error_iff.mpr ⟨left, hover⟩)
  rw [Machine.run_load, Machine.run_load, htraverse, Traversal.outcome, Traversal.outcome]
  cases (u.traverse capacity).effect with
  | next live => simp
  | fault e left => simp

/-- **The number of slots shows only when the stack overflows.** A run that does not overflow gives
the same result or fault on more slots, ends in the same phase, leaves the same values and logs the
same. A run that overflows names the number of its slots and fails at a load. It leaves one value in
each slot, and these are the values with which the code before that load halts, on as many slots or
more. -/
theorem run_capacity {u : CodeUnit} {capacity larger : Nat} (hle : capacity ≤ larger) :
    ((∀ limit, (Machine.load u capacity).run.result ≠ .error (.stackOverflow limit)) →
      (Machine.load u larger).run.result = (Machine.load u capacity).run.result ∧
        (Machine.load u larger).run.machine.phase = (Machine.load u capacity).run.machine.phase ∧
        (Machine.load u larger).run.machine.stack.values
          = (Machine.load u capacity).run.machine.stack.values ∧
        (Machine.load u larger).run.events = (Machine.load u capacity).run.events) ∧
    ∀ limit, (Machine.load u capacity).run.result = .error (.stackOverflow limit) →
      limit = capacity ∧ (Machine.load u capacity).run.machine.stack.values.length = capacity ∧
        ∃ offset, (Machine.load u capacity).run.faultSite? = some (offset, some .constant) ∧
          u.code[offset]? = some Opcode.constant.byte ∧
          HaltsWith (u.upTo offset) capacity (Machine.load u capacity).run.machine.stack.values ∧
          HaltsWith (u.upTo offset) larger (Machine.load u capacity).run.machine.stack.values := by
  refine ⟨Machine.run_load_of_le hle, ?_⟩
  intro limit herror
  have hatMost := Machine.length_values_run_load_le u capacity
  obtain ⟨left, heffect⟩ := Machine.result_run_load_eq_error_iff.mp herror
  obtain ⟨offset, byte, live, hbyte, hhalts, hsite, hfails⟩ := CodeUnit.exists_failsOn heffect
  obtain ⟨rfl, hop, rfl, hfull⟩ := hfails.of_stackOverflow
  have hvalues : (Machine.load u limit).run.machine.stack.values = left.reverse := by
    rw [Machine.run_load, Traversal.outcome, heffect]
    exact OperandStack.values_holding limit left
  rw [hop, ← Machine.faultSite?_run_load] at hsite
  rw [← Opcode.byte_of_ofByte? hop] at hbyte
  rw [hvalues, List.length_reverse] at hatMost ⊢
  refine ⟨rfl, Nat.le_antisymm hatMost hfull, offset, hsite, hbyte, hhalts, ?_⟩
  -- the code before the load halts, so it does the same on more slots
  obtain ⟨hresult, hphase, hleft, -⟩ :=
    Machine.run_load_of_le hle (u := u.upTo offset) (by simp [hhalts.result_eq])
  exact ⟨hresult.trans hhalts.result_eq, hphase.trans hhalts.phase_eq, hleft.trans hhalts.values_eq⟩

/-- Two texts are joined and another one follows. Two slots are enough, since the stack is full
before the addition but not behind it, and more slots change nothing; one slot is full when the
second text is loaded, and without slots the first load overflows. -/
theorem run_capacity_join :
    let u : CodeUnit :=
      ⟨encodeAll [.load 0, .load 1, .apply .add, .load 0], #[.text "a", .text "b"]⟩
    (Machine.load u 5).run.result = .ok (some (.text "a")) ∧
      (Machine.load u 5).run.machine.stack.values = [.text "ab", .text "a"] ∧
      (∃ offset, (Machine.load u 1).run.faultSite? = some (offset, some .constant) ∧
        HaltsWith (u.upTo offset) 2 [.text "a"]) ∧
      ∃ offset, (Machine.load u 0).run.faultSite? = some (offset, some .constant) ∧
        HaltsWith (u.upTo offset) 2 [] := by
  intro u
  have htwo : (Machine.load u 2).run.result = .ok (some (.text "a")) := by decide +kernel
  have hvalues : (Machine.load u 2).run.machine.stack.values = [.text "ab", .text "a"] := by
    decide +kernel
  have hone : (Machine.load u 1).run.result = .error (.stackOverflow 1) := by decide +kernel
  have hfirst : (Machine.load u 1).run.machine.stack.values = [.text "a"] := by decide +kernel
  have hzero : (Machine.load u 0).run.result = .error (.stackOverflow 0) := by decide +kernel
  have hempty : (Machine.load u 0).run.machine.stack.values = [] := by decide +kernel
  have hroom : ∀ limit, (Machine.load u 2).run.result ≠ .error (.stackOverflow limit) := by
    simp [htwo]
  have hsame := (run_capacity (show 2 ≤ 5 by decide)).1 hroom
  obtain ⟨-, -, offset, hsite, -, -, hhalts⟩ := (run_capacity (show 1 ≤ 2 by decide)).2 1 hone
  obtain ⟨-, -, offset', hsite', -, -, hhalts'⟩ := (run_capacity (show 0 ≤ 2 by decide)).2 0 hzero
  rw [hfirst] at hhalts
  rw [hempty] at hhalts'
  exact ⟨hsame.1.trans htwo, hsame.2.2.1.trans hvalues, ⟨offset, hsite, hhalts⟩, offset', hsite',
    hhalts'⟩

end StackMachine
