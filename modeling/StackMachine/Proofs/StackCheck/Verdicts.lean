import StackMachine.Proofs.Code.Decoding
import StackMachine.Proofs.Machine.FaultSite
import StackMachine.Proofs.StackCheck.Soundness

/-! # The check and the run name the same defect

When the check rejects a unit, it stops at one instruction: the code before it passes the check, and
the instruction is malformed, refers past the pool or finds too few values. No run gets beyond this
instruction. It stops there at the same defect, or earlier on operands or on a full stack; and a run
that stops at a defect has met the one that the check reports.

* **`CheckError.offset?`** — where the check stops, and **`CodeUnit.upTo`** — the code before that
  place.
* **`StopsBy`** — how a run can stop at a defect of its code, or before it.
* **`stopsBy_andThen`** — instructions that pass the check, followed by a defect, stop so.
* **`CodeUnit.exists_stopsBy`** — every rejected unit stops so, at the place where the check does.
* **`check_verdict`** — verdicts of the check and faults of the run correspond. -/

namespace StackMachine

/-! ## Where the check stops -/

/-- The offset at which decoding stopped short. -/
def Stop.offset? : Stop → Option Nat
  | .done => none
  | .unknownOpcode _ offset => some offset
  | .truncated _ offset => some offset

/-- The offset of the instruction at which the check of some code stops: malformed code stops it
where decoding stops, and the other errors name the place. -/
def CheckError.offset? (c : CheckError) (code : List UInt8) : Option Nat :=
  match c with
  | .malformed _ => (decode code).stop.offset?
  | .constantOutOfRange offset _ _ => some offset
  | .underflow offset _ _ => some offset

/-- The unit with the code before an offset only. -/
def CodeUnit.upTo (u : CodeUnit) (offset : Nat) : CodeUnit := { u with code := u.code.take offset }

/-- The code before an offset, when that is where the encoding of some instructions ends. -/
theorem CodeUnit.code_upTo {u : CodeUnit} {first : List Instr} {rest : List UInt8}
    (h : u.code = encodeAll first ++ rest) :
    (u.upTo (encodeAll first).length).code
      = encodeAll first := by
  show u.code.take (encodeAll first).length = encodeAll first
  rw [h, List.take_left]

/-- An error that one instruction causes lies at this instruction. -/
theorem CheckError.offset?_of_advance {profile : StackProfile} {size : Nat} {item : Located}
    {c : CheckError} (h : profile.advance size item = .error c) (code : List UInt8) :
    c.offset? code = some item.offset := by
  obtain ⟨index, -, -, rfl⟩ | ⟨op, -, -, rfl⟩ := StackProfile.advance_eq_error h
  · rfl
  · rfl

/-- **A check that stops among the instructions stops at one of them**: those before it pass. -/
theorem StackProfile.exists_advance_eq_error {size offset : Nat} {profile : StackProfile}
    {instrs : List Instr} {c : CheckError}
    (h : follow size .done profile (locateFrom offset #[] instrs) = .error c) :
    ∃ first i rest before, instrs = first ++ i :: rest ∧
      follow size .done profile (locateFrom offset #[] first) = .ok before ∧
      before.advance size ⟨offset + (encodeAll first).length, i⟩ = .error c := by
  induction instrs generalizing offset profile with
  | nil => cases h
  | cons i rest ih =>
    rw [locateFrom_cons, follow] at h
    cases hnext : profile.advance size ⟨offset, i⟩ with
    | error c' =>
      simp only [hnext, Except.error.injEq] at h
      subst h
      exact ⟨[], i, rest, profile, rfl, rfl, hnext⟩
    | ok next =>
      -- the first instruction passes, so it joins those before the defect
      simp only [hnext] at h
      obtain ⟨first, j, tail, before, rfl, hfirst, hstop⟩ := ih h
      refine ⟨i :: first, j, tail, before, rfl, ?_, ?_⟩
      · rw [locateFrom_cons, follow]
        simp only [hnext, hfirst]
      · rw [length_encodeAll_cons, ← Nat.add_assoc]
        exact hstop

/-! ## How a rejected unit runs -/

/-- **Failing at a defect**: the traversal `t` ends at the instruction at `offset`, whose opcode is
`op?` if it has one, in the fault that corresponds to the error `c` of the check. -/
def FailsAt (c : CheckError) (offset : Nat) (op? : Option Opcode) (t : Traversal) : Prop :=
  ∃ e live, t.effect = .fault e live ∧ SameDefect offset op? e c ∧ t.faultSite? = some (offset, op?)

/-- **Stopping by a defect**: the traversal `t` on `capacity` slots does not get beyond the defect
`c` at `offset`, before which the heights have the profile `before`. -/
inductive StopsBy (c : CheckError) (offset : Nat) (op? : Option Opcode) (before : StackProfile)
    (capacity : Nat) (t : Traversal) : Prop where
  /-- The heights before the defect do not fit. -/
  | overflow {live : List Value} (heffect : t.effect = .fault (.stackOverflow capacity) live)
      (hmax : capacity < before.maxDepth)
  /-- An earlier operation fails on its operands. -/
  | operands {e : RuntimeError} {live : List Value} {earlier : Nat} {op : Opcode}
      (he : OperandFault e)
      (heffect : t.effect = .fault e live) (hsite : t.faultSite? = some (earlier, some op))
      (hlt : earlier < offset)
  /-- The defect itself is met. -/
  | defect (hfails : FailsAt c offset op? t)

/-- **Instructions that pass the check, and then a defect**: what follows the instructions fails on
any values that they can leave. -/
theorem stopsBy_andThen {pool : Array Value} {first : List Instr} {before : StackProfile}
    {c : CheckError} {op? : Option Opcode} {rest : List Value → Traversal}
    (hfirst : StackProfile.follow pool.size .done ⟨0, 0⟩ (locate first) = .ok before)
    (hrest : ∀ live, live.length = before.finalDepth →
      FailsAt c (encodeAll first).length op? (rest live))
    (capacity : Nat) :
    StopsBy c (encodeAll first).length op? before capacity
      ((traverse pool capacity [] (locate first)).andThen rest) := by
  have hfollows : Follows capacity before (traverse pool capacity [] (locate first)).effect :=
    follows_of_follow rfl (Nat.zero_le capacity) (Nat.zero_le capacity) hfirst
  generalize heffect : (traverse pool capacity [] (locate first)).effect = effect at hfollows
  cases hfollows with
  | @next live hlive hmax =>
    obtain ⟨e, live', hfault, hdefect, hsite⟩ := hrest live hlive
    refine .defect ⟨e, live', ?_, hdefect, faultSite?_andThen heffect hsite⟩
    rw [Traversal.andThen, heffect]
    exact hfault
  | overflow live hmax =>
    rw [Traversal.andThen_of_fault heffect]
    exact .overflow heffect hmax
  | @operands e he live =>
    obtain ⟨item, hmem, hsite⟩ := exists_faultSite?_of_traverse heffect
    -- the instruction that fails is one of `first`, hence before the defect
    have hlt := offset_lt_of_mem_locateFrom hmem
    rw [Nat.zero_add] at hlt
    rw [Traversal.andThen_of_fault heffect]
    exact .operands he heffect hsite hlt

/-- An instruction at which the check stops fails at once. -/
theorem failsAt_traverse_cons {pool : Array Value} {capacity : Nat} {live : List Value}
    {before : StackProfile} {item : Located} {c : CheckError}
    (hlive : live.length = before.finalDepth) (hstop : before.advance pool.size item = .error c)
    (rest : List Located) (stop : Stop) :
    FailsAt c item.offset (some item.instr.opcode)
      ((traverse pool capacity live (item :: rest)).andThen stop.conclude) := by
  have hexecutes := item.instr.executes_effect pool capacity live
  obtain ⟨e, live', heffect, hdefect⟩ := hexecutes.sameDefect hlive hstop
  rw [heffect] at hexecutes
  rw [traverse, heffect, Traversal.andThen_fault, Traversal.andThen_fault]
  exact ⟨e, live', rfl, hdefect, hexecutes.site? _ _ _⟩

/-- **Every rejected unit stops where the check does**: there is one place that the check names, the
code before it passes, and no run of any capacity gets beyond it. -/
theorem CodeUnit.exists_stopsBy {u : CodeUnit} {c : CheckError} (h : u.check = .error c) :
    ∃ offset op? before, c.offset? u.code = some offset ∧ (u.upTo offset).check = .ok before ∧
      ∀ capacity, StopsBy c offset op? before capacity (u.traverse capacity) := by
  obtain ⟨instrs, tail, hcode, hstuck, hdecode⟩ := exists_encodeAll_append_stuck u.code
  have htraverse : ∀ capacity, u.traverse capacity
      = (StackMachine.traverse u.pool capacity [] (locate instrs)).andThen
        (decode u.code).stop.conclude := by
    intro capacity
    rw [CodeUnit.traverse, hdecode]
  rw [CodeUnit.check_eq_follow, hdecode] at h
  rcases StackProfile.follow_eq_error h with hitems | ⟨before, cause, hitems, hcause, rfl⟩
  · -- the check stops at an instruction
    obtain ⟨first, i, rest, before, rfl, hfirst, hstop⟩ :=
      StackProfile.exists_advance_eq_error hitems
    rw [Nat.zero_add] at hstop
    rw [encodeAll_append, List.append_assoc] at hcode
    refine ⟨(encodeAll first).length, some i.opcode, before,
      CheckError.offset?_of_advance hstop u.code, ?_, ?_⟩
    · rw [CodeUnit.check_of_encodeAll (CodeUnit.code_upTo hcode)]
      exact hfirst
    · intro capacity
      rw [htraverse, locate_append, locateFrom_cons, traverse_append, Traversal.andThen_assoc]
      refine stopsBy_andThen hfirst ?_ capacity
      intro live hlive
      exact failsAt_traverse_cons hlive hstop _ _
  · -- the instructions pass, and the check stops where decoding does
    have hupTo : (u.upTo (encodeAll instrs).length).check = .ok before := by
      rw [CodeUnit.check_of_encodeAll (CodeUnit.code_upTo hcode)]
      exact hitems
    generalize hstop : (decode u.code).stop = stop at hstuck hcause htraverse
    have hoffset : (CheckError.malformed cause).offset? u.code = stop.offset? := by
      rw [CheckError.offset?, hstop]
    cases hstuck with
    | done => cases hcause
    | unknownOpcode hnone rest =>
      cases hcause
      refine ⟨(encodeAll instrs).length, none, before, hoffset, hupTo, ?_⟩
      intro capacity
      rw [htraverse]
      refine stopsBy_andThen hitems ?_ capacity
      intro live hlive
      exact ⟨_, live, rfl, .unknownOpcode _, rfl⟩
    | truncated hshort =>
      cases hcause
      refine ⟨(encodeAll instrs).length, some .constant, before, hoffset, hupTo, ?_⟩
      intro capacity
      rw [htraverse]
      refine stopsBy_andThen hitems ?_ capacity
      intro live hlive
      exact ⟨_, live, rfl, .truncated, rfl⟩

/-! ## Verdicts and faults -/

/-- A traversal that stops by a defect ends in a fault. -/
theorem StopsBy.exists_fault {c : CheckError} {offset : Nat} {op? : Option Opcode}
    {before : StackProfile} {capacity : Nat} {t : Traversal}
    (h : StopsBy c offset op? before capacity t) :
    ∃ e live, t.effect = .fault e live := by
  cases h with
  | overflow heffect hmax => exact ⟨_, _, heffect⟩
  | operands he heffect hsite hlt => exact ⟨_, _, heffect⟩
  | defect hfails =>
    obtain ⟨e, live, heffect, -, -⟩ := hfails
    exact ⟨e, live, heffect⟩

/-- No run of a rejected unit halts. -/
theorem CodeUnit.result_ne_ok_of_check {u : CodeUnit} {c : CheckError} (h : u.check = .error c)
    (capacity : Nat) (top? : Option Value) : (Machine.load u capacity).run.result ≠ .ok top? := by
  obtain ⟨offset, op?, before, -, -, hstops⟩ := CodeUnit.exists_stopsBy h
  obtain ⟨e, live, heffect⟩ := (hstops capacity).exists_fault
  have herror := Machine.result_run_load_eq_error_iff.mpr ⟨live, heffect⟩
  rw [herror]
  intro hok
  cases hok

/-- **A run that fails neither on operands nor on a full stack has met the defect that the check
reports.** -/
theorem CodeUnit.check_of_result {u : CodeUnit} {capacity : Nat} {e : RuntimeError}
    (herror : (Machine.load u capacity).run.result = .error e) (hoperands : ¬ OperandFault e)
    (hover : e ≠ .stackOverflow capacity) :
    ∃ offset op? c, u.check = .error c ∧ SameDefect offset op? e c ∧
      (Machine.load u capacity).run.faultSite? = some (offset, op?) := by
  obtain ⟨live, heffect⟩ := Machine.result_run_load_eq_error_iff.mp herror
  cases hcheck : u.check with
  | ok profile =>
    have hfollows := CodeUnit.follows_of_check hcheck capacity
    rw [heffect] at hfollows
    cases hfollows with
    | overflow => exact absurd rfl hover
    | operands he => exact absurd he hoperands
  | error c =>
    -- of the ways to stop by the defect only the last one is left,
    -- since a traversal ends in one fault
    obtain ⟨offset, op?, before, -, -, hstops⟩ := CodeUnit.exists_stopsBy hcheck
    cases hstops capacity with
    | overflow hfull hmax =>
      rw [heffect] at hfull
      cases hfull
      exact absurd rfl hover
    | operands he hfault hsite hlt =>
      rw [heffect] at hfault
      cases hfault
      exact absurd he hoperands
    | defect hfails =>
      obtain ⟨e', live', hfault, hdefect, hsite⟩ := hfails
      rw [heffect] at hfault
      cases hfault
      refine ⟨offset, op?, c, rfl, hdefect, ?_⟩
      rw [Machine.faultSite?_run_load, hsite]

/-- **Verdicts of the check and faults of the run correspond.** A run that halts is that of a unit
that passes; a run that fails at a defect is that of a unit for which the check reports this defect
at the same instruction. Conversely, when the check stops at `offset`, no run halts, and a run with
room for the heights before `offset` fails there with the same defect, or on operands at an earlier
instruction. -/
theorem check_verdict (u : CodeUnit) :
    (∀ capacity,
      ((∃ top?, (Machine.load u capacity).run.result = .ok top?) →
        ∃ profile, u.check = .ok profile) ∧
      (∀ byte offset, (Machine.load u capacity).run.result = .error (.unknownOpcode byte offset) →
        u.check = .error (.malformed (.unknownOpcode byte))) ∧
      (∀ offset, (Machine.load u capacity).run.result = .error (.truncatedInstruction offset) →
        u.check = .error (.malformed (.truncated .constant offset))) ∧
      (∀ index size, (Machine.load u capacity).run.result
        = .error (.constantOutOfRange index size) →
        ∃ offset, (Machine.load u capacity).run.faultSite? = some (offset, some .constant) ∧
          u.check = .error (.constantOutOfRange offset index size)) ∧
      ((Machine.load u capacity).run.result = .error .stackUnderflow →
        ∃ offset op, (Machine.load u capacity).run.faultSite? = some (offset, some op) ∧
          u.check = .error (.underflow offset op 2))) ∧
    (∀ c, u.check = .error c →
      ∃ offset before, c.offset? u.code = some offset ∧ (u.upTo offset).check = .ok before ∧
        (∀ capacity top?, (Machine.load u capacity).run.result ≠ .ok top?) ∧
        ∀ capacity, before.maxDepth ≤ capacity →
          (∃ e op?, SameDefect offset op? e c ∧ (Machine.load u capacity).run.result = .error e ∧
            (Machine.load u capacity).run.faultSite? = some (offset, op?)) ∨
          (∃ e earlier op, OperandFault e ∧ (Machine.load u capacity).run.result = .error e ∧
            (Machine.load u capacity).run.faultSite? = some (earlier, some op) ∧
              earlier < offset)) := by
  constructor
  · intro capacity
    refine ⟨?_, ?_, ?_, ?_, ?_⟩
    · rintro ⟨top?, hok⟩
      cases hcheck : u.check with
      | ok profile => exact ⟨profile, rfl⟩
      | error c => exact absurd hok (CodeUnit.result_ne_ok_of_check hcheck capacity top?)
    · intro byte offset herror
      obtain ⟨site, op?, c, hcheck, hdefect, -⟩ := CodeUnit.check_of_result herror nofun nofun
      cases hdefect
      exact hcheck
    · intro offset herror
      obtain ⟨site, op?, c, hcheck, hdefect, -⟩ := CodeUnit.check_of_result herror nofun nofun
      cases hdefect
      exact hcheck
    · intro index size herror
      obtain ⟨site, op?, c, hcheck, hdefect, hsite⟩ := CodeUnit.check_of_result herror nofun nofun
      cases hdefect
      exact ⟨site, hsite, hcheck⟩
    · intro herror
      obtain ⟨site, op?, c, hcheck, hdefect, hsite⟩ := CodeUnit.check_of_result herror nofun nofun
      cases hdefect
      exact ⟨site, _, hsite, hcheck⟩
  · intro c hcheck
    obtain ⟨offset, op?, before, hoffset, hupTo, hstops⟩ := CodeUnit.exists_stopsBy hcheck
    refine ⟨offset, before, hoffset, hupTo, CodeUnit.result_ne_ok_of_check hcheck, ?_⟩
    intro capacity hmax
    rw [Machine.faultSite?_run_load]
    cases hstops capacity with
    | overflow heffect hlt => exact absurd hmax (Nat.not_le_of_lt hlt)
    | @operands e live earlier op he heffect hsite hlt =>
      have herror := Machine.result_run_load_eq_error_iff.mpr ⟨live, heffect⟩
      exact Or.inr ⟨e, earlier, op, he, herror, hsite, hlt⟩
    | defect hfails =>
      obtain ⟨e, live, heffect, hdefect, hsite⟩ := hfails
      have herror := Machine.result_run_load_eq_error_iff.mpr ⟨live, heffect⟩
      exact Or.inl ⟨e, op?, hdefect, herror, hsite⟩

/-- Of two defects the first one counts, for the run as for the check: the operation underflows
before the byte that is no opcode is reached. -/
theorem check_verdict_two_defects :
    let u : CodeUnit := ⟨[0x01, 0x00, 0x00, 0x10, 0xee], #[.text "a"]⟩
    u.check = .error (.underflow 3 (.arith .add) 2) ∧
      (Machine.load u 1).run.result = .error .stackUnderflow ∧
      ∃ offset op, (Machine.load u 1).run.faultSite? = some (offset, some op) ∧
        u.check = .error (.underflow offset op 2) := by
  intro u
  have hresult : (Machine.load u 1).run.result = .error .stackUnderflow :=
    congrArg RunOutcome.result (Machine.run_load u 1)
  exact ⟨u.check_eq_follow, hresult, ((check_verdict u).1 1).2.2.2.2 hresult⟩

end StackMachine
