import StackMachine.Proofs.Machine.LiveValues

/-! # The stack check predicts the run

The check and the machine come to the same instructions, so they go through these in step. The
check carries a profile whose
final height is the number of live values, and whose greatest height has so far fitted into the
stack of the machine. From such a position one instruction either takes both to the next position,
or stops the machine: on its operands, on a full stack that the profile outgrows, or on a defect
that the check reports too.

* **`Follows capacity profile effect`** — the machine did what a profile predicts on a stack of
  `capacity` slots.
* **`SameDefect offset op? e c`** — the fault `e` of the machine and the error `c` of the check are
  the same defect of the instruction at `offset`.
* **`Executes.follows`** and **`Executes.sameDefect`** — one instruction, where the check goes on
  and where it stops.
* **`follows_of_follow`** — any number of instructions, by induction.
* **`run_of_check`** — the run of a unit that passes the check. -/

namespace StackMachine

/-! ## What the check can predict -/

/-- **What a profile predicts** of the machine with `capacity` slots. -/
inductive Follows (capacity : Nat) (profile : StackProfile) : Effect → Prop where
  /-- The heights fit, and as many values are live as the profile says. -/
  | next {live : List Value} (hlive : live.length = profile.finalDepth)
      (hmax : profile.maxDepth ≤ capacity) :
      Follows capacity profile (.next live)
  /-- The greatest height does not fit, and the stack overflows. -/
  | overflow (live : List Value) (hmax : capacity < profile.maxDepth) :
      Follows capacity profile (.fault (.stackOverflow capacity) live)
  /-- An operation fails on its operands first. -/
  | operands {e : RuntimeError} (he : OperandFault e) (live : List Value) :
      Follows capacity profile (.fault e live)

/-- **One defect seen twice**: the fault `e` of the machine and the error `c` of the check at the
instruction at `offset`, whose opcode is `op?` if it has one. -/
inductive SameDefect (offset : Nat) : Option Opcode → RuntimeError → CheckError → Prop where
  /-- The byte is no opcode. -/
  | unknownOpcode (byte : UInt8) :
      SameDefect offset none (.unknownOpcode byte offset) (.malformed (.unknownOpcode byte))
  /-- The operand of a load is incomplete. -/
  | truncated :
      SameDefect offset (some .constant) (.truncatedInstruction offset)
        (.malformed (.truncated .constant offset))
  /-- A load refers past the end of the pool. -/
  | constantOutOfRange (index size : Nat) :
      SameDefect offset (some .constant) (.constantOutOfRange index size)
        (.constantOutOfRange offset index size)
  /-- An operation finds fewer than two values. -/
  | underflow (op : Arith) :
      SameDefect offset (some (.arith op)) .stackUnderflow (.underflow offset (.arith op) 2)

/-! ## One instruction -/

namespace StackProfile

/-- **Where the check goes on**: over a load of a constant of the pool, one higher, or over an
operation that finds two values, one lower. -/
theorem advance_eq_ok {size : Nat} {profile next : StackProfile} {item : Located}
    (h : profile.advance size item = .ok next) :
    (∃ index, item.instr = .load index ∧ index.toNat < size ∧
      next = ⟨max profile.maxDepth (profile.finalDepth + 1), profile.finalDepth + 1⟩) ∨
    (∃ op, item.instr = .apply op ∧ 2 ≤ profile.finalDepth ∧
      next = ⟨max profile.maxDepth (profile.finalDepth - 1), profile.finalDepth - 1⟩) := by
  obtain ⟨offset, index | op⟩ := item
  · simp only [advance] at h
    by_cases hindex : index.toNat < size
    · simp only [if_pos hindex, Except.ok.injEq] at h
      exact Or.inl ⟨index, rfl, hindex, h.symm⟩
    · simp [if_neg hindex] at h
  · simp only [advance] at h
    by_cases htwo : 2 ≤ profile.finalDepth
    · simp only [if_pos htwo, Except.ok.injEq] at h
      exact Or.inr ⟨op, rfl, htwo, h.symm⟩
    · simp [if_neg htwo] at h

/-- **Where the check stops**: at a load past the end of the pool, or at an operation that finds
fewer than two values. -/
theorem advance_eq_error {size : Nat} {profile : StackProfile} {item : Located} {c : CheckError}
    (h : profile.advance size item = .error c) :
    (∃ index, item.instr = .load index ∧ size ≤ index.toNat ∧
      c = .constantOutOfRange item.offset index.toNat size) ∨
    (∃ op, item.instr = .apply op ∧ profile.finalDepth < 2 ∧
      c = .underflow item.offset (.arith op) 2) := by
  obtain ⟨offset, index | op⟩ := item
  · simp only [advance] at h
    by_cases hindex : index.toNat < size
    · simp [if_pos hindex] at h
    · simp only [if_neg hindex, Except.error.injEq] at h
      exact Or.inl ⟨index, rfl, Nat.le_of_not_lt hindex, h.symm⟩
  · simp only [advance] at h
    by_cases htwo : 2 ≤ profile.finalDepth
    · simp [if_pos htwo] at h
    · simp only [if_neg htwo, Except.error.injEq] at h
      exact Or.inr ⟨op, rfl, Nat.lt_of_not_le htwo, h.symm⟩

end StackProfile

section Step

variable {pool : Array Value} {capacity : Nat} {live : List Value} {profile : StackProfile}
  {item : Located} {effect : Effect}

/-- **Where the check goes on, the machine follows it.** -/
theorem Executes.follows {next : StackProfile} (h : Executes pool capacity item.instr live effect)
    (hlive : live.length = profile.finalDepth) (hmax : profile.maxDepth ≤ capacity)
    (hfit : live.length ≤ capacity) (hnext : profile.advance pool.size item = .ok next) :
    Follows capacity next effect := by
  obtain ⟨index, hinstr, hindex, rfl⟩ | ⟨op, hinstr, htwo, rfl⟩ := StackProfile.advance_eq_ok hnext
  · rw [hinstr] at h
    cases h with
    | load hv hroom =>
      refine .next ?_ ?_
      · rw [List.length_cons, hlive]
      · show max profile.maxDepth (profile.finalDepth + 1) ≤ capacity
        omega
    | overflow hv hfull =>
      -- the new height is the first one that does not fit
      refine .overflow live ?_
      show capacity < max profile.maxDepth (profile.finalDepth + 1)
      omega
    | outOfRange hout => exact absurd hindex (Nat.not_lt_of_le hout)
  · rw [hinstr] at h
    cases h with
    | @apply op left right v below hv =>
      rw [List.length_cons, List.length_cons] at hlive hfit
      refine .next ?_ ?_
      · show below.length + 1 = profile.finalDepth - 1
        omega
      · show max profile.maxDepth (profile.finalDepth - 1) ≤ capacity
        omega
    | operands he => exact .operands (operandFault_of_apply he) _
    | underflow hfew =>
      rw [hlive] at hfew
      exact absurd htwo (Nat.not_le_of_lt hfew)

/-- **Where the check stops, the machine stops at the same defect**, whatever its capacity. -/
theorem Executes.sameDefect {c : CheckError} (h : Executes pool capacity item.instr live effect)
    (hlive : live.length = profile.finalDepth) (hstop : profile.advance pool.size item = .error c) :
    ∃ e live', effect = .fault e live' ∧ SameDefect item.offset (some item.instr.opcode) e c := by
  obtain ⟨index, hinstr, hout, rfl⟩ | ⟨op, hinstr, hfew, rfl⟩ := StackProfile.advance_eq_error hstop
  · rw [hinstr] at h ⊢
    cases h with
    | load hv hroom => exact absurd (Array.getElem?_eq_some_iff.mp hv).1 (Nat.not_lt_of_le hout)
    | overflow hv hfull =>
      -- the pool comes before the stack, so a full stack does not hide the defect
      exact absurd (Array.getElem?_eq_some_iff.mp hv).1 (Nat.not_lt_of_le hout)
    | outOfRange _ => exact ⟨_, live, rfl, .constantOutOfRange _ _⟩
  · rw [hinstr] at h ⊢
    rw [← hlive] at hfew
    cases h with
    | apply hv => exact absurd hfew (Nat.not_lt_of_le (Nat.le_add_left 2 _))
    | operands he => exact absurd hfew (Nat.not_lt_of_le (Nat.le_add_left 2 _))
    | underflow _ => exact ⟨.stackUnderflow, [], rfl, .underflow op⟩

end Step

/-! ## Any number of instructions -/

namespace StackProfile

/-- **The check of a concatenation** goes on with the profile that the first part gives. -/
theorem follow_append (size : Nat) (stop : Stop) (profile : StackProfile)
    (first second : List Located) :
    follow size stop profile (first ++ second)
      = (follow size .done profile first).bind fun next => follow size stop next second := by
  induction first generalizing profile with
  | nil => rfl
  | cons item rest ih =>
    rw [List.cons_append, follow, follow]
    cases profile.advance size item with
    | error c => rfl
    | ok next => exact ih next

/-- A check that passes has gone through all instructions and found the end of the code. -/
theorem follow_eq_ok {size : Nat} {stop : Stop} {profile final : StackProfile}
    {items : List Located} (h : follow size stop profile items = .ok final) :
    follow size .done profile items = .ok final ∧ stop = .done := by
  -- the stop is the check of no instructions behind all the others
  have hsplit := follow_append size stop profile items []
  rw [List.append_nil, h] at hsplit
  cases hitems : follow size .done profile items with
  | error c => simp [hitems, Except.bind] at hsplit
  | ok next =>
    rw [hitems] at hsplit
    cases stop with
    | done =>
      cases hsplit
      exact ⟨rfl, rfl⟩
    | unknownOpcode byte offset => cases hsplit
    | truncated op offset => cases hsplit

/-- A check that fails has stopped among the instructions, or behind them where decoding stopped. -/
theorem follow_eq_error {size : Nat} {stop : Stop} {profile : StackProfile} {items : List Located}
    {c : CheckError} (h : follow size stop profile items = .error c) :
    follow size .done profile items = .error c ∨
      ∃ before cause, follow size .done profile items = .ok before ∧ stop.error? = some cause ∧
        c = .malformed cause := by
  have hsplit := follow_append size stop profile items []
  rw [List.append_nil, h] at hsplit
  cases hitems : follow size .done profile items with
  | error c' =>
    rw [hitems] at hsplit
    exact Or.inl hsplit.symm
  | ok before =>
    rw [hitems] at hsplit
    refine Or.inr ⟨before, ?_⟩
    cases stop with
    | done => cases hsplit
    | unknownOpcode byte offset =>
      cases hsplit
      exact ⟨.unknownOpcode byte, rfl, rfl, rfl⟩
    | truncated op offset =>
      cases hsplit
      exact ⟨.truncated op offset, rfl, rfl, rfl⟩

/-- The greatest height only grows along an instruction. -/
theorem maxDepth_le_of_advance {size : Nat} {profile next : StackProfile} {item : Located}
    (h : profile.advance size item = .ok next) : profile.maxDepth ≤ next.maxDepth := by
  obtain ⟨index, -, -, rfl⟩ | ⟨op, -, -, rfl⟩ := advance_eq_ok h
  · exact Nat.le_max_left _ _
  · exact Nat.le_max_left _ _

/-- The greatest height only grows along a check. -/
theorem maxDepth_le_of_follow {size : Nat} {profile final : StackProfile} {items : List Located}
    (h : follow size .done profile items = .ok final) : profile.maxDepth ≤ final.maxDepth := by
  induction items generalizing profile with
  | nil =>
    cases h
    exact Nat.le_refl _
  | cons item rest ih =>
    rw [follow] at h
    cases hnext : profile.advance size item with
    | error c => simp [hnext] at h
    | ok next =>
      simp only [hnext] at h
      exact Nat.le_trans (maxDepth_le_of_advance hnext) (ih h)

end StackProfile

/-- **The machine follows the check** through any number of instructions that the check accepts. -/
theorem follows_of_follow {pool : Array Value} {capacity : Nat} {live : List Value}
    {profile final : StackProfile} {items : List Located} (hlive : live.length = profile.finalDepth)
    (hmax : profile.maxDepth ≤ capacity) (hfit : live.length ≤ capacity)
    (h : StackProfile.follow pool.size .done profile items = .ok final) :
    Follows capacity final (traverse pool capacity live items).effect := by
  induction items generalizing live profile with
  | nil =>
    cases h
    exact .next hlive hmax
  | cons item rest ih =>
    rw [StackProfile.follow] at h
    rw [traverse]
    cases hnext : profile.advance pool.size item with
    | error c => simp [hnext] at h
    | ok next =>
      simp only [hnext] at h
      have hexecutes := item.instr.executes_effect pool capacity live
      have hstep := hexecutes.follows hlive hmax hfit hnext
      generalize item.instr.effect pool capacity live = effect at hexecutes hstep
      cases hstep with
      | next hlive' hmax' =>
        -- both go on, and the induction takes over from the next position
        exact ih hlive' hmax' (hexecutes.length_le hfit) h
      | overflow live' hover =>
        -- what a profile has reached it never forgets
        exact .overflow live' (Nat.lt_of_lt_of_le hover (StackProfile.maxDepth_le_of_follow h))
      | operands he live' => exact .operands he live'

/-! ## Units that pass the check -/

/-- The check of encoded instructions follows them to the end. -/
theorem CodeUnit.check_of_encodeAll {u : CodeUnit} {instrs : List Instr}
    (h : u.code = encodeAll instrs) :
    u.check = StackProfile.follow u.pool.size .done ⟨0, 0⟩ (locate instrs) := by
  rw [CodeUnit.check_eq_follow, h, decode_encodeAll]

/-- The check of a unit that passes it follows the instructions of its code to the end. -/
theorem CodeUnit.follow_of_check {u : CodeUnit} {profile : StackProfile}
    (h : u.check = .ok profile) :
    StackProfile.follow u.pool.size .done ⟨0, 0⟩ (decode u.code).instrs = .ok profile ∧
      (decode u.code).stop = .done := by
  rw [CodeUnit.check_eq_follow] at h
  exact StackProfile.follow_eq_ok h

/-- The machine follows the check through a whole unit. -/
theorem CodeUnit.follows_of_check {u : CodeUnit} {profile : StackProfile}
    (h : u.check = .ok profile) (capacity : Nat) :
    Follows capacity profile (u.traverse capacity).effect := by
  obtain ⟨hfollow, hstop⟩ := CodeUnit.follow_of_check h
  rw [CodeUnit.traverse, hstop, Traversal.andThen_conclude_done]
  exact follows_of_follow rfl (Nat.zero_le capacity) (Nat.zero_le capacity) hfollow

/-- A unit that passes the check never runs into a defect that the check could report. -/
theorem CodeUnit.result_ne_of_check {u : CodeUnit} {profile : StackProfile}
    (h : u.check = .ok profile) (capacity : Nat) {offset : Nat} {op? : Option Opcode}
    {e : RuntimeError} {c : CheckError} (hdefect : SameDefect offset op? e c) :
    (Machine.load u capacity).run.result ≠ .error e := by
  intro herror
  obtain ⟨live, heffect⟩ := Machine.result_run_load_eq_error_iff.mp herror
  have hfollows := CodeUnit.follows_of_check h capacity
  rw [heffect] at hfollows
  cases hfollows with
  | overflow => cases hdefect
  | operands he => cases he <;> cases hdefect

/-- A unit that passes the check never overflows on as many slots as the check says. -/
theorem CodeUnit.effect_ne_overflow_of_check {u : CodeUnit} {profile : StackProfile}
    (h : u.check = .ok profile) {capacity : Nat} (hmax : profile.maxDepth ≤ capacity) (limit : Nat)
    (left : List Value) :
    (u.traverse capacity).effect ≠ .fault (.stackOverflow limit) left := by
  intro hover
  have hfollows := CodeUnit.follows_of_check h capacity
  rw [hover] at hfollows
  cases hfollows with
  | overflow live hlt => exact absurd hmax (Nat.not_le_of_lt hlt)
  | operands he => cases he

/-- **The stack check is sound and tight.** A unit that passes it never runs into a defect of its
code. With at least as many slots as the greatest height it halts with the final height of values or
fails on operands; with fewer it never halts, and overflows unless it fails on operands first. -/
theorem run_of_check {u : CodeUnit} {profile : StackProfile} (h : u.check = .ok profile)
    (capacity : Nat) :
    ((∀ byte offset, (Machine.load u capacity).run.result ≠ .error (.unknownOpcode byte offset)) ∧
      (∀ offset, (Machine.load u capacity).run.result ≠ .error (.truncatedInstruction offset)) ∧
      (∀ index size, (Machine.load u capacity).run.result
        ≠ .error (.constantOutOfRange index size)) ∧
      (Machine.load u capacity).run.result ≠ .error .stackUnderflow) ∧
    (profile.maxDepth ≤ capacity →
      ((∃ top?, (Machine.load u capacity).run.result = .ok top?) ∧
        (Machine.load u capacity).run.machine.phase = .halted ∧
        (Machine.load u capacity).run.machine.stack.values.length = profile.finalDepth) ∨
      ∃ e, OperandFault e ∧ (Machine.load u capacity).run.result = .error e) ∧
    (capacity < profile.maxDepth →
      (Machine.load u capacity).run.result = .error (.stackOverflow capacity) ∨
      ∃ e, OperandFault e ∧ (Machine.load u capacity).run.result = .error e) := by
  refine ⟨⟨?_, ?_, ?_, ?_⟩, ?_⟩
  · intro byte offset
    exact CodeUnit.result_ne_of_check h capacity (.unknownOpcode byte)
  · intro offset
    exact CodeUnit.result_ne_of_check h capacity .truncated
  · intro index size
    -- the fault does not tell its place, so any offset will do
    have hdefect : SameDefect 0 (some .constant) (.constantOutOfRange index size) _ :=
      .constantOutOfRange index size
    exact CodeUnit.result_ne_of_check h capacity hdefect
  · have hdefect : SameDefect 0 (some (.arith .add)) .stackUnderflow _ := .underflow .add
    exact CodeUnit.result_ne_of_check h capacity hdefect
  · have hfollows := CodeUnit.follows_of_check h capacity
    rw [Machine.run_load]
    simp only [Traversal.outcome]
    generalize (u.traverse capacity).effect = effect at hfollows
    cases hfollows with
    | @next live hlive hmax =>
      refine ⟨fun _ => Or.inl ⟨⟨_, rfl⟩, rfl, ?_⟩, fun hlt => absurd hmax (Nat.not_le_of_lt hlt)⟩
      rw [OperandStack.values_holding, List.length_reverse, hlive]
    | overflow live hmax =>
      exact ⟨fun hle => absurd hle (Nat.not_le_of_lt hmax), fun _ => Or.inl rfl⟩
    | @operands e he live => exact ⟨fun _ => Or.inr ⟨e, he, rfl⟩, fun _ => Or.inr ⟨e, he, rfl⟩⟩

/-- Two loads and an operation reach height two and leave one value. Two slots are enough for them,
one is not. -/
theorem run_of_check_addition :
    let u : CodeUnit := ⟨encodeAll [.load 0, .load 1, .apply .add], #[.text "a", .text "b"]⟩
    u.check = .ok ⟨2, 1⟩ ∧
      (((∃ top?, (Machine.load u 2).run.result = .ok top?) ∧
        (Machine.load u 2).run.machine.phase = .halted ∧
        (Machine.load u 2).run.machine.stack.values.length = 1) ∨
        ∃ e, OperandFault e ∧ (Machine.load u 2).run.result = .error e) ∧
      ((Machine.load u 1).run.result = .error (.stackOverflow 1) ∨
        ∃ e, OperandFault e ∧ (Machine.load u 1).run.result = .error e) := by
  intro u
  have hcheck : u.check = .ok ⟨2, 1⟩ := u.check_eq_follow
  have htwo := (run_of_check hcheck 2).2.1 (Nat.le_refl 2)
  have hone := (run_of_check hcheck 1).2.2 (Nat.lt_succ_self 1)
  exact ⟨hcheck, htwo, hone⟩

end StackMachine
