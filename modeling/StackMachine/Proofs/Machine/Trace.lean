import Mathlib.Data.List.Chain
import StackMachine.Proofs.Listing.Execution
import StackMachine.Proofs.Machine.Composition

/-! # The log of a run is its trace

A run logs every instruction that it recognises, with the height of the stack, before it executes
it, and ends the log with one event that tells how the run ended. From the log alone one can tell
which instructions were executed and how high the stack was before each of them.

* **`TracePoint`** — an instruction as the log reports it.
* **`Reached u capacity p`** — the run of `u` gets to the instruction of `p` with as many values as
  `p` says, and the check gets there with the same height.
* **`Faithful u capacity trace stop`** — the points of `trace` stand one behind the other, from the
  start of the code up to `stop`, and are all reached; `Faithful.concat` adds one more.
* **`FailsAtLast`** and **`FailsBehind`** — where a run fails: at the last point of its trace, or at
  a byte behind it that is no opcode.
* **`exists_faithful_of_traverse`** — the log of instructions, by induction on them.
* **`run_trace`** — the log of a run. -/

namespace StackMachine

/-! ## Points of a trace -/

/-- A **trace point**: an instruction as the log of a run reports it. -/
structure TracePoint where
  /-- Where the instruction starts. -/
  offset : Nat
  /-- Its opcode. -/
  op : Opcode
  /-- The height of the stack before it. -/
  height : Nat
deriving DecidableEq

/-- The event that reports a trace point. -/
def TracePoint.event (p : TracePoint) : RunEvent := .exec p.offset p.op p.height

/-- Where the instruction of a trace point ends, and the next one starts. -/
def TracePoint.next (p : TracePoint) : Nat := p.offset + p.op.layout.size

/-- **A point that the run of a unit gets to**: its opcode stands in the code at its offset, and the
code before it halts with as many values as its height says, which is the height that the check
finds there. -/
structure Reached (u : CodeUnit) (capacity : Nat) (p : TracePoint) : Prop where
  /-- The byte at the offset is that of the opcode. -/
  op_eq : u.code[p.offset]?.bind Opcode.ofByte? = some p.op
  /-- The code before the offset halts with as many values as the height says. -/
  halts : ∃ values, HaltsWith (u.upTo p.offset) capacity values ∧ values.length = p.height
  /-- The check of the code before the offset ends at this height. -/
  check : ∃ profile, (u.upTo p.offset).check = .ok profile ∧ profile.finalDepth = p.height

/-- A unit that halts passes the check, and its values are as many as the final height. -/
theorem HaltsWith.exists_check {u : CodeUnit} {capacity : Nat} {values : List Value}
    (h : HaltsWith u capacity values) :
    ∃ profile, u.check = .ok profile ∧ profile.finalDepth = values.length := by
  cases hcheck : u.check with
  | error c => exact absurd h.result_eq (CodeUnit.result_ne_ok_of_check hcheck capacity _)
  | ok profile =>
    have hfollows := CodeUnit.follows_of_check hcheck capacity
    rw [haltsWith_iff.mp h] at hfollows
    cases hfollows with
    | next hlive hmax => exact ⟨profile, rfl, by rw [← hlive, List.length_reverse]⟩

/-- The unit with the code before an offset, when that is where the encoding of some instructions
ends. -/
theorem CodeUnit.upTo_eq {u : CodeUnit} {first : List Instr} {rest : List UInt8}
    (h : u.code = encodeAll first ++ rest) :
    u.upTo (encodeAll first).length = ⟨encodeAll first, u.pool⟩ := by
  show (⟨u.code.take (encodeAll first).length, u.pool⟩ : CodeUnit) = _
  rw [h, List.take_left]

/-- **The code before the place where instructions end halts**, if they go on to the end. -/
theorem CodeUnit.haltsWith_upTo {u : CodeUnit} {capacity : Nat} {first : List Instr}
    {rest : List UInt8} {live : List Value} (hcode : u.code = encodeAll first ++ rest)
    (heffect : (StackMachine.traverse u.pool capacity [] (locate first)).effect = .next live) :
    HaltsWith (u.upTo (encodeAll first).length) capacity live.reverse := by
  rw [CodeUnit.upTo_eq hcode, haltsWith_iff, CodeUnit.traverse_encodeAll, List.reverse_reverse,
    heffect]

/-- **An opcode behind instructions that go on is reached**, whether or not its instruction is
complete. -/
theorem reached_of_traverse {u : CodeUnit} {capacity : Nat} {first : List Instr} {byte : UInt8}
    {rest : List UInt8} {op : Opcode} {live : List Value}
    (hcode : u.code = encodeAll first ++ byte :: rest) (hop : Opcode.ofByte? byte = some op)
    (heffect : (traverse u.pool capacity [] (locate first)).effect = .next live) :
    Reached u capacity ⟨(encodeAll first).length, op, live.length⟩ := by
  have hhalts := CodeUnit.haltsWith_upTo hcode heffect
  have hcheck := hhalts.exists_check
  rw [List.length_reverse] at hcheck
  exact ⟨by simp [hcode, hop], ⟨_, hhalts, List.length_reverse⟩, hcheck⟩

/-! ## Faithful traces -/

/-- **A faithful trace**: its points stand one behind the other, from the start of the code up to
`stop`, and the run of the unit gets to all of them. -/
structure Faithful (u : CodeUnit) (capacity : Nat) (trace : List TracePoint) (stop : Nat) :
    Prop where
  /-- The first point is at the start. -/
  head : ∀ p ∈ trace.head?, p.offset = 0
  /-- Each point is where the one before it ends. -/
  chain : trace.IsChain fun p q => q.offset = p.next
  /-- The last point ends at `stop`. -/
  last : (trace.getLast?.map TracePoint.next).getD 0 = stop
  /-- All points are before `stop`. -/
  lt : ∀ p ∈ trace, p.offset < stop
  /-- All points are reached. -/
  reached : ∀ p ∈ trace, Reached u capacity p

/-- The empty trace is faithful. -/
theorem Faithful.nil (u : CodeUnit) (capacity : Nat) : Faithful u capacity [] 0 :=
  ⟨by simp, .nil, rfl, by simp, by simp⟩

/-- **One more point**: a faithful trace goes on with a point that is reached where it ends. -/
theorem Faithful.concat {u : CodeUnit} {capacity stop height : Nat} {trace : List TracePoint}
    {op : Opcode} (h : Faithful u capacity trace stop)
    (hpoint : Reached u capacity ⟨stop, op, height⟩) :
    Faithful u capacity (trace ++ [⟨stop, op, height⟩]) (stop + op.layout.size) := by
  have hsize : 0 < op.layout.size := by rcases op with _ | (_ | _ | _ | _) <;> decide
  refine ⟨?_, ?_, ?_, ?_, ?_⟩
  · intro p hp
    cases trace with
    | nil =>
      cases hp
      exact h.last.symm
    | cons first rest => exact h.head p hp
  · refine h.chain.append (List.isChain_singleton _) ?_
    intro p hp q hq
    cases hq
    have hlast := h.last
    rw [hp] at hlast
    exact hlast.symm
  · rw [List.getLast?_concat]
    rfl
  · intro p hp
    rcases List.mem_append.mp hp with hearlier | hlast
    · exact Nat.lt_add_right _ (h.lt p hearlier)
    · rw [List.mem_singleton.mp hlast]
      exact Nat.lt_add_of_pos_right hsize
  · intro p hp
    rcases List.mem_append.mp hp with hearlier | hlast
    · exact h.reached p hearlier
    · rwa [List.mem_singleton.mp hlast]

/-! ## The log of instructions -/

/-- **The last instruction of a trace is the one that fails**: with it, and without what follows it,
the code fails in the same way. A byte that is no opcode is never on a trace. -/
structure FailsAtLast (u : CodeUnit) (capacity : Nat) (trace : List TracePoint) (e : RuntimeError) :
    Prop where
  /-- The fault is not that of a byte which is no opcode. -/
  ne_unknownOpcode : ∀ byte offset, e ≠ .unknownOpcode byte offset
  /-- The code up to the end of the last instruction has the fault. -/
  result_eq : ∃ p, trace.getLast? = some p ∧
    (Machine.load (u.upTo p.next) capacity).run.result = .error e

/-- An encoded instruction starts with its opcode. -/
theorem Instr.exists_encode_eq_cons (i : Instr) :
    ∃ byte operands, i.encode = byte :: operands ∧ Opcode.ofByte? byte = some i.opcode :=
  ⟨_, _, rfl, Opcode.ofByte?_byte i.opcode⟩

/-- An instruction that fails has an opcode. -/
theorem Executes.ne_unknownOpcode {pool : Array Value} {capacity : Nat} {i : Instr}
    {live left : List Value} {e : RuntimeError} (h : Executes pool capacity i live (.fault e left))
    (byte : UInt8) (offset : Nat) :
    e ≠ .unknownOpcode byte offset := by
  rintro rfl
  cases h with
  | operands he =>
    have hoperands := operandFault_of_apply he
    cases hoperands

/-- An instruction behind others executes on what they leave, and is logged behind them. -/
theorem traverse_concat {pool : Array Value} {capacity : Nat} {first : List Instr}
    {middle : List Value} (h : (traverse pool capacity [] (locate first)).effect = .next middle)
    (i : Instr) :
    traverse pool capacity [] (locate (first ++ [i]))
      = ⟨i.effect pool capacity middle, (traverse pool capacity [] (locate first)).log ++
          [.exec (encodeAll first).length i.opcode middle.length]⟩ := by
  rw [locate_append, traverse_append, locateFrom_cons, Traversal.andThen, h]
  dsimp only
  rw [traverse]
  cases i.effect pool capacity middle with
  | next live => rfl
  | fault e left => rfl

/-- **The log of instructions is a faithful trace**: it ends where they do if they go on to the end,
and with the one that fails otherwise. -/
theorem exists_faithful_of_traverse {u : CodeUnit} {instrs : List Instr} {rest : List UInt8}
    (hcode : u.code = encodeAll instrs ++ rest) (capacity : Nat) :
    ∃ trace stop, (traverse u.pool capacity [] (locate instrs)).log = trace.map TracePoint.event ∧
      Faithful u capacity trace stop ∧
      ((∃ live, (traverse u.pool capacity [] (locate instrs)).effect = .next live ∧
        stop = (encodeAll instrs).length) ∨
        ∃ e left, (traverse u.pool capacity [] (locate instrs)).effect = .fault e left ∧
          FailsAtLast u capacity trace e) := by
  -- the last instruction finds what the others leave, so the induction takes it off
  induction instrs using List.reverseRecOn generalizing rest with
  | nil => exact ⟨[], 0, rfl, .nil u capacity, Or.inl ⟨[], rfl, rfl⟩⟩
  | append_singleton first i ih =>
    have hsplit : u.code = encodeAll first ++ (encodeAll [i] ++ rest) := by
      rw [hcode, encodeAll_append, List.append_assoc]
    obtain ⟨trace, stop, hlog, hfaithful, ⟨middle, hmiddle, rfl⟩ | ⟨e, left, hfault, hlast⟩⟩ :=
      ih hsplit
    · -- the others go on to `i`, which is reached and becomes the last point
      obtain ⟨byte, operands, hencode, hop⟩ := i.exists_encode_eq_cons
      have hopcode : u.code = encodeAll first ++ byte :: (operands ++ encodeAll [] ++ rest) := by
        rw [hsplit, encodeAll_cons, hencode]
        rfl
      have hnext : (encodeAll first).length + i.opcode.layout.size
          = (encodeAll (first ++ [i])).length := by
        rw [encodeAll_append, List.length_append, length_encodeAll_cons]
        rfl
      refine ⟨_, _, ?_, hfaithful.concat (reached_of_traverse hopcode hop hmiddle), ?_⟩
      · rw [traverse_concat hmiddle, hlog, List.map_append]
        rfl
      · rw [traverse_concat hmiddle, hnext]
        cases heffect : i.effect u.pool capacity middle with
        | next live => exact Or.inl ⟨live, rfl, rfl⟩
        | fault e left =>
          have hexecutes := i.executes_effect u.pool capacity middle
          rw [heffect] at hexecutes
          refine Or.inr ⟨e, left, rfl, hexecutes.ne_unknownOpcode, _, List.getLast?_concat, ?_⟩
          rw [TracePoint.next, hnext, CodeUnit.upTo_eq hcode, Machine.result_run_load_eq_error_iff,
            CodeUnit.traverse_encodeAll, traverse_concat hmiddle]
          exact ⟨left, heffect⟩
    · -- one of the others fails, so `i` is neither executed nor logged
      rw [locate_append, traverse_append, Traversal.andThen_of_fault hfault]
      exact ⟨trace, stop, hlog, hfaithful, Or.inr ⟨e, left, hfault, hlast⟩⟩

/-! ## The log of a run -/

/-- **A byte behind a trace is no opcode**: the code before it halts with `values`, and the fault
names the byte and its offset. -/
structure FailsBehind (u : CodeUnit) (capacity stop : Nat) (values : List Value)
    (e : RuntimeError) : Prop where
  /-- The byte behind the trace is no opcode, and the fault says so. -/
  byte : ∃ byte, u.code[stop]? = some byte ∧ Opcode.ofByte? byte = none ∧
    e = .unknownOpcode byte stop
  /-- The code before it halts. -/
  halts : HaltsWith (u.upTo stop) capacity values

/-- **The log of a traversal of a unit is a faithful trace**: it ends where the code does, or with
the instruction that fails, or before the byte that is no opcode. -/
theorem CodeUnit.exists_faithful_traverse (u : CodeUnit) (capacity : Nat) :
    ∃ trace stop, (u.traverse capacity).log = trace.map TracePoint.event ∧
      Faithful u capacity trace stop ∧
      ((∃ live, (u.traverse capacity).effect = .next live ∧ stop = u.code.length) ∨
        ∃ e left, (u.traverse capacity).effect = .fault e left ∧
          (FailsAtLast u capacity trace e ∨ FailsBehind u capacity stop left.reverse e)) := by
  obtain ⟨instrs, tail, hcode, hstuck, hdecode⟩ := exists_encodeAll_append_stuck u.code
  obtain ⟨trace, stop, hlog, hfaithful, ⟨live, hnext, rfl⟩ | ⟨e, left, hfault, hlast⟩⟩ :=
    exists_faithful_of_traverse hcode capacity
  · -- the complete instructions go on to the end, and the tail decides
    have htraverse : u.traverse capacity = ⟨((decode u.code).stop.conclude live).effect,
        trace.map TracePoint.event ++ ((decode u.code).stop.conclude live).log⟩ := by
      rw [CodeUnit.traverse, hdecode, Traversal.andThen, hnext, hlog]
    generalize (decode u.code).stop = reason at hstuck htraverse
    rw [htraverse]
    cases hstuck with
    | done =>
      refine ⟨trace, _, List.append_nil _, hfaithful, Or.inl ⟨live, rfl, ?_⟩⟩
      rw [hcode, List.append_nil]
    | @unknownOpcode byte hnone rest =>
      have hbyte : u.code[(encodeAll instrs).length]? = some byte := by simp [hcode]
      have hhalts := CodeUnit.haltsWith_upTo hcode hnext
      exact ⟨trace, _, List.append_nil _, hfaithful,
        Or.inr ⟨_, live, rfl, Or.inr ⟨⟨byte, hbyte, hnone, rfl⟩, hhalts⟩⟩⟩
    | @truncated rest hshort =>
      have hreached := reached_of_traverse hcode (Opcode.ofByte?_byte .constant) hnext
      -- the incomplete instruction reaches past the end,
      -- so the code up to its end is the whole code
      have hwhole : u.upTo ((encodeAll instrs).length + Opcode.constant.layout.size) = u := by
        have hlength : u.code.length ≤ (encodeAll instrs).length + 3 := by
          rw [hcode, List.length_append, List.length_cons]
          omega
        exact congrArg (fun code => (⟨code, u.pool⟩ : CodeUnit)) (List.take_of_length_le hlength)
      refine ⟨_, _, ?_, hfaithful.concat hreached,
        Or.inr ⟨_, live, rfl, Or.inl ⟨?_, _, List.getLast?_concat, ?_⟩⟩⟩
      · rw [List.map_append]
        rfl
      · intro byte offset he
        cases he
      · rw [TracePoint.next, hwhole, Machine.result_run_load_eq_error_iff, htraverse]
        exact ⟨live, rfl⟩
  · have htraverse : u.traverse capacity
        = StackMachine.traverse u.pool capacity [] (locate instrs) := by
      rw [CodeUnit.traverse, hdecode, Traversal.andThen_of_fault hfault]
    rw [htraverse]
    exact ⟨trace, stop, hlog, hfaithful, Or.inr ⟨e, left, hfault, Or.inl hlast⟩⟩

/-- The instructions that the events of a trace report. -/
theorem filterMap_site?_map_event (trace : List TracePoint) :
    (trace.map TracePoint.event).filterMap RunEvent.site?
      = trace.map fun p => (p.offset, p.op) := by
  rw [List.filterMap_map, ← List.filterMap_eq_map]
  rfl

/-- **The log of a run is its trace.** It consists of points that stand one behind the other from
the start of the code, each with the opcode at its offset and with the height that the stack has
there, which is the one that the check finds; and of one more event. If the run halts, this event
gives the number of values left, the points are at the instructions of the listing, a line for each,
and they reach to the end of the code. If the run fails, the event gives the fault and the number of
values left, and the last point is the instruction that fails, unless a byte is no opcode: this byte
stands where the trace ends, and has no point. -/
theorem run_trace (u : CodeUnit) (capacity : Nat) :
    let r := (Machine.load u capacity).run
    ∃ trace stop final, r.events = trace.map TracePoint.event ++ [final] ∧
      Faithful u capacity trace stop ∧
      (∀ top?, r.result = .ok top? →
        final = .halted r.machine.stack.values.length ∧ stop = u.code.length ∧
          ∃ raws, trace.mapM (fun p => rawAt? u.code p.offset) = some raws ∧
            raws.map RawInstr.op = trace.map TracePoint.op ∧
            listCode u.code = .ok (joinLines (raws.map RawInstr.line))) ∧
      ∀ e, r.result = .error e →
        final = .faulted e r.machine.stack.values.length ∧
          (FailsAtLast u capacity trace e ∨
            FailsBehind u capacity stop r.machine.stack.values e) := by
  obtain ⟨trace, stop, hlog, hfaithful, ⟨live, hnext, hstop⟩ | ⟨e, left, hfault, hplace⟩⟩ :=
    u.exists_faithful_traverse capacity
  · have hrun : (Machine.load u capacity).run
        = ⟨.ok live.head?, ⟨u, .holding capacity live, .halted⟩,
          trace.map TracePoint.event ++ [.halted live.length]⟩ := by
      simp only [Machine.run_load, Traversal.outcome, hnext, hlog]
    obtain ⟨raws, hraws, hops, hlisting⟩ :=
      CodeUnit.listCode_of_result (congrArg RunOutcome.result hrun)
    have hexecuted : (Machine.load u capacity).run.executed
        = trace.map fun p => (p.offset, p.op) := by
      rw [RunOutcome.executed, hrun, List.filterMap_append, filterMap_site?_map_event]
      exact List.append_nil _
    rw [hexecuted, List.mapM_map] at hraws
    rw [hexecuted, List.map_map] at hops
    refine ⟨trace, stop, .halted live.length, ?_, hfaithful, ?_, ?_⟩
    · rw [hrun]
    · intro top? hok
      rw [hrun, OperandStack.values_holding, List.length_reverse]
      exact ⟨rfl, hstop, raws, hraws, hops, hlisting⟩
    · intro e herror
      rw [hrun] at herror
      cases herror
  · have hrun : (Machine.load u capacity).run = ⟨.error e, ⟨u, .holding capacity left, .faulted⟩,
        trace.map TracePoint.event ++ [.faulted e left.length]⟩ := by
      simp only [Machine.run_load, Traversal.outcome, hfault, hlog]
    refine ⟨trace, stop, .faulted e left.length, ?_, hfaithful, ?_, ?_⟩
    · rw [hrun]
    · intro top? hok
      rw [hrun] at hok
      cases hok
    · intro e' herror
      rw [hrun] at herror ⊢
      cases herror
      rw [OperandStack.values_holding, List.length_reverse]
      exact ⟨rfl, hplace⟩

/-- A load halts with one value; an addition behind it is logged before it finds too few values; and
a byte behind it that is no opcode is not logged. -/
theorem run_trace_load :
    let load : CodeUnit := ⟨encodeAll [.load 0], #[.text "a"]⟩
    let sum : CodeUnit := ⟨encodeAll [.load 0, .apply .add], #[.text "a"]⟩
    let stray : CodeUnit := ⟨encodeAll [.load 0] ++ [0xee], #[.text "a"]⟩
    (Machine.load load 1).run.events = [.exec 0 .constant 0, .halted 1] ∧
      (Machine.load sum 1).run.events
        = [.exec 0 .constant 0, .exec 3 (.arith .add) 1, .faulted .stackUnderflow 0] ∧
      (Machine.load stray 1).run.events
        = [.exec 0 .constant 0, .faulted (.unknownOpcode 0xee 3) 1] ∧
      (∃ trace stop, Faithful load 1 trace stop ∧ stop = load.code.length) ∧
      (∃ trace stop, Faithful sum 1 trace stop ∧
        (FailsAtLast sum 1 trace .stackUnderflow ∨ FailsBehind sum 1 stop [] .stackUnderflow)) ∧
      ∃ trace stop, Faithful stray 1 trace stop ∧
        (FailsAtLast stray 1 trace (.unknownOpcode 0xee 3) ∨
          FailsBehind stray 1 stop [.text "a"] (.unknownOpcode 0xee 3)) := by
  intro load sum stray
  obtain ⟨traceLoad, stopLoad, _, -, hload, hhalted, -⟩ := run_trace load 1
  obtain ⟨traceSum, stopSum, _, -, hsum, -, hunderflow⟩ := run_trace sum 1
  obtain ⟨traceStray, stopStray, _, -, hstray, -, hunknown⟩ := run_trace stray 1
  rw [Machine.run_load] at hhalted hunderflow hunknown
  simp only [Machine.run_load]
  exact ⟨rfl, rfl, rfl, ⟨traceLoad, stopLoad, hload, (hhalted _ rfl).2.1⟩,
    ⟨traceSum, stopSum, hsum, (hunderflow _ rfl).2⟩, traceStray, stopStray, hstray,
    (hunknown _ rfl).2⟩

end StackMachine
