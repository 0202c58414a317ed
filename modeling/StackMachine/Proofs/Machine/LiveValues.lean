import StackMachine.Proofs.Code.Passes

/-! # The machine on its live values

The operand stack keeps its values in a fixed array of slots. Seen from outside only the **live
values** count: the list of what the stack holds, its top first. This file describes every operation
of the machine on that list.

* **`OperandStack.holding capacity live`** — the stack of `capacity` slots that holds exactly
  `live`; a push conses, a pop takes the head, and the fresh stack holds nothing.
* **`Instr.effect`** — one instruction on live values, equal to `step` on the stack that holds them
  (`step_holding`).
* **`Executes`** — the cases of `Instr.effect`, from which every fact about one instruction follows.
* **`traverse`** — a sequence of instructions on live values together with the log of their
  execution; it composes (`traverse_append`) and is what `execute` does (`execute_holding`).
* **`CodeUnit.traverse`** — the run of a whole unit from the empty stack. The result, the values
  left, the phase and the log of `Machine.run` are all read off from it. -/

namespace StackMachine

/-! ## Stacks as lists of live values -/

namespace OperandStack

/-- The **stack of `capacity` slots that holds `live`**, its top first: the values fill the slots
from the bottom and the slots above them are empty. -/
def holding (capacity : Nat) (live : List Value) : OperandStack :=
  -- the slots go from the bottom up and the live values from the top down
  ⟨(live.reverse.map some ++ List.replicate (capacity - live.length) none).toArray, live.length⟩

/-- The fresh stack holds nothing. -/
theorem empty_eq_holding (capacity : Nat) : empty capacity = holding capacity [] := by
  rw [empty, holding, List.reverse_nil, List.map_nil, List.nil_append, List.length_nil,
    Nat.sub_zero, List.toArray_replicate]

/-- The height of a stack is the number of its live values. -/
@[simp] theorem height_holding (capacity : Nat) (live : List Value) :
    (holding capacity live).height = live.length := rfl

/-- A stack has as many slots as its capacity says, provided its values fit. -/
theorem capacity_holding {capacity : Nat} {live : List Value} (hfit : live.length ≤ capacity) :
    (holding capacity live).capacity = capacity := by
  have hslots : (holding capacity live).capacity = live.length + (capacity - live.length) := by
    simp [OperandStack.capacity, holding]
  rw [hslots]
  omega

/-- There is room for another value exactly when the live values are fewer than the slots. -/
theorem hasRoom_holding {capacity : Nat} {live : List Value} (hfit : live.length ≤ capacity) :
    (holding capacity live).hasRoom = decide (live.length < capacity) := by
  have hsize : (holding capacity live).slots.size = capacity := capacity_holding hfit
  rw [hasRoom, hsize, height_holding]

/-- **A push conses.** The next free slot is the first of the empty ones. -/
theorem push_holding {capacity : Nat} {live : List Value} (hroom : live.length < capacity)
    (v : Value) : (holding capacity live).push v = holding capacity (v :: live) := by
  have hfree : capacity - live.length = (capacity - (live.length + 1)) + 1 := by omega
  rw [push, holding, holding, hfree, List.replicate_succ, List.setIfInBounds_toArray,
    List.set_append_right _ _ (by simp)]
  simp

/-- A pop finds nothing on a stack without values. -/
@[simp] theorem pop_holding_nil (capacity : Nat) :
    (holding capacity []).pop = (none, holding capacity []) := rfl

/-- **A pop takes the head.** The slot of the topmost value becomes the first of the empty ones. -/
theorem pop_holding_cons {capacity : Nat} {live : List Value} (hroom : live.length < capacity)
    (v : Value) : (holding capacity (v :: live)).pop = (some v, holding capacity live) := by
  have hfree : capacity - live.length = (capacity - (live.length + 1)) + 1 := by omega
  have hslot : (holding capacity (v :: live)).slots[live.length]? = some (some v) := by
    simp [holding]
  have hclear : (holding capacity (v :: live)).slots.setIfInBounds live.length none
      = (holding capacity live).slots := by
    rw [holding, holding, hfree, List.replicate_succ, List.setIfInBounds_toArray, List.reverse_cons,
      List.map_append, List.append_assoc, List.set_append_right _ _ (by simp)]
    simp
  rw [pop, height_holding, List.length_cons]
  simp only [hslot, hclear]
  rfl

/-- The values of a stack, bottom first, are its live values in reverse. -/
@[simp] theorem values_holding (capacity : Nat) (live : List Value) :
    (holding capacity live).values = live.reverse := by
  rw [values, height_holding, holding, List.take_append_of_le_length (by simp),
    List.take_of_length_le (by simp), List.filterMap_map]
  exact List.filterMap_some

/-- The topmost value is the head of the live values. -/
@[simp] theorem top?_holding (capacity : Nat) (live : List Value) :
    (holding capacity live).top? = live.head? := by
  cases live with
  | nil => rfl
  | cons v live =>
    rw [top?, height_holding, List.length_cons]
    simp [holding]

end OperandStack

/-! ## One instruction on live values -/

/-- What an instruction, or a sequence of them, makes of the live values. -/
inductive Effect where
  /-- Execution goes on with these values. -/
  | next (live : List Value)
  /-- Execution stops and leaves these values. -/
  | fault (error : RuntimeError) (live : List Value)

/-- The effect on the stack of `capacity` slots that holds the values. -/
def Effect.onStack (capacity : Nat) : Effect → StepResult
  | .next live => .next (.holding capacity live)
  | .fault e live => .fault e (.holding capacity live)

/-- **One instruction on live values.** A load needs its constant first and room second; an
operation needs two values, the right operand on top, and always has room for its result. -/
def Instr.effect (pool : Array Value) (capacity : Nat) (live : List Value) : Instr → Effect
  | .load index =>
    match pool[index.toNat]? with
    | some v =>
      if live.length < capacity then .next (v :: live) else .fault (.stackOverflow capacity) live
    | none => .fault (.constantOutOfRange index.toNat pool.size) live
  | .apply op =>
    match live with
    | right :: left :: below =>
      match op.apply left right with
      | .ok v => .next (v :: below)
      | .error e => .fault e below
    | _ => .fault .stackUnderflow []

/-- A push on the stack that holds `live`: it conses, or finds the stack full. -/
theorem pushValue_holding {capacity : Nat} {live : List Value} (hfit : live.length ≤ capacity)
    (v : Value) :
    pushValue (.holding capacity live) v
      = if live.length < capacity then .next (.holding capacity (v :: live))
        else .fault (.stackOverflow capacity) (.holding capacity live) := by
  rw [pushValue, OperandStack.hasRoom_holding hfit]
  by_cases hroom : live.length < capacity
  · rw [if_pos hroom, if_pos (decide_eq_true hroom), OperandStack.push_holding hroom]
  · rw [if_neg hroom, if_neg (by simpa using hroom), OperandStack.capacity_holding hfit]

/-- **A step is its effect on the live values**, as long as these fit into the slots. -/
theorem step_holding (pool : Array Value) {capacity : Nat} {live : List Value}
    (hfit : live.length ≤ capacity) (i : Instr) :
    step pool (.holding capacity live) i = (i.effect pool capacity live).onStack capacity := by
  cases i with
  | load index =>
    rw [step, loadEntry, Instr.effect]
    cases pool[index.toNat]? with
    | none => rfl
    | some v =>
      simp only [pushValue_holding hfit]
      split <;> rfl
  | apply op =>
    rcases live with _ | ⟨right, _ | ⟨left, below⟩⟩
    · rfl
    · -- the first pop empties the stack, and the second one finds nothing
      have hright : (OperandStack.holding capacity [right]).pop
          = (some right, .holding capacity []) :=
        OperandStack.pop_holding_cons hfit right
      simp only [step, applyTop, hright, OperandStack.pop_holding_nil]
      rfl
    · simp only [List.length_cons] at hfit
      have hright : (OperandStack.holding capacity (right :: left :: below)).pop
          = (some right, .holding capacity (left :: below)) :=
        OperandStack.pop_holding_cons hfit right
      have hleft : (OperandStack.holding capacity (left :: below)).pop
          = (some left, .holding capacity below) :=
        OperandStack.pop_holding_cons (Nat.lt_of_succ_lt hfit) left
      simp only [step, applyTop, hright, hleft, Instr.effect]
      cases op.apply left right with
      | error e => rfl
      | ok v =>
        -- two values are gone, so the result finds room
        have hroom : below.length < capacity := by omega
        simp only [pushValue_holding (Nat.le_of_lt hroom), if_pos hroom, Effect.onStack]

/-! ## What one instruction can do -/

/-- A **fault of operands**: an operation is undefined on the values it finds. -/
inductive OperandFault : RuntimeError → Prop where
  /-- The kinds of the operands do not go with the operation. -/
  | typeMismatch (op : Arith) (left right : Kind) : OperandFault (.typeMismatch op left right)
  /-- The divisor is zero. -/
  | divideByZero : OperandFault .divideByZero

/-- An operation fails only on its operands. -/
theorem operandFault_of_apply {op : Arith} {left right : Value} {e : RuntimeError}
    (h : op.apply left right = .error e) : OperandFault e := by
  unfold Arith.apply at h
  split at h
  · cases h
  · cases h
  · cases h
  · cases h
  · split at h
    · cases h
      exact .divideByZero
    · cases h
  · cases h
    exact .typeMismatch _ _ _

/-- **All that one instruction can do** to live values: `Executes pool capacity i live effect`. -/
inductive Executes (pool : Array Value) (capacity : Nat) : Instr → List Value → Effect → Prop where
  /-- A load pushes its constant. -/
  | load {index : UInt16} {live : List Value} {v : Value} (hv : pool[index.toNat]? = some v)
      (hroom : live.length < capacity) :
      Executes pool capacity (.load index) live (.next (v :: live))
  /-- A load finds the stack full. -/
  | overflow {index : UInt16} {live : List Value} {v : Value} (hv : pool[index.toNat]? = some v)
      (hfull : capacity ≤ live.length) :
      Executes pool capacity (.load index) live (.fault (.stackOverflow capacity) live)
  /-- A load refers past the end of the pool. -/
  | outOfRange {index : UInt16} {live : List Value} (hindex : pool.size ≤ index.toNat) :
      Executes pool capacity (.load index) live
        (.fault (.constantOutOfRange index.toNat pool.size) live)
  /-- An operation replaces its operands by its result. -/
  | apply {op : Arith} {left right v : Value} {below : List Value}
      (hv : op.apply left right = .ok v) :
      Executes pool capacity (.apply op) (right :: left :: below) (.next (v :: below))
  /-- An operation fails on its operands, which are gone. -/
  | operands {op : Arith} {left right : Value} {below : List Value} {e : RuntimeError}
      (he : op.apply left right = .error e) :
      Executes pool capacity (.apply op) (right :: left :: below) (.fault e below)
  /-- An operation finds fewer than two values and takes what is there. -/
  | underflow {op : Arith} {live : List Value} (hfew : live.length < 2) :
      Executes pool capacity (.apply op) live (.fault .stackUnderflow [])

/-- An instruction does one of these. -/
theorem Instr.executes_effect (i : Instr) (pool : Array Value) (capacity : Nat)
    (live : List Value) :
    Executes pool capacity i live (i.effect pool capacity live) := by
  cases i with
  | load index =>
    rw [Instr.effect]
    cases hv : pool[index.toNat]? with
    | none => exact .outOfRange (Array.getElem?_eq_none_iff.mp hv)
    | some v =>
      by_cases hroom : live.length < capacity
      · simp only [if_pos hroom]
        exact .load hv hroom
      · simp only [if_neg hroom]
        exact .overflow hv (Nat.le_of_not_lt hroom)
  | apply op =>
    match live with
    | [] => exact .underflow (by decide)
    | [_] => exact .underflow (Nat.lt_succ_self 1)
    | right :: left :: below =>
      simp only [Instr.effect]
      cases hresult : op.apply left right with
      | ok v => exact .apply hresult
      | error e => exact .operands hresult

/-- An instruction that goes on leaves values that fit. -/
theorem Executes.length_le {pool : Array Value} {capacity : Nat} {live live' : List Value}
    {i : Instr} (h : Executes pool capacity i live (.next live')) (hfit : live.length ≤ capacity) :
    live'.length ≤ capacity := by
  cases h with
  | load hv hroom => exact hroom
  | apply hv =>
    simp only [List.length_cons] at hfit ⊢
    omega

/-! ## Sequences of instructions on live values -/

/-- A **traversal**: the effect of a sequence of instructions, and the log of those that were
executed. -/
structure Traversal where
  /-- What became of the live values. -/
  effect : Effect
  /-- The events of the instructions, in order. -/
  log : List RunEvent

/-- Continues a traversal that did not stop; a fault ends it for good. -/
def Traversal.andThen (t : Traversal) (continuation : List Value → Traversal) : Traversal :=
  match t.effect with
  | .next live => ⟨(continuation live).effect, t.log ++ (continuation live).log⟩
  | .fault _ _ => t

/-- **Executes instructions in order on live values** and logs each one before it executes. -/
def traverse (pool : Array Value) (capacity : Nat) : List Value → List Located → Traversal
  | live, [] => ⟨.next live, []⟩
  | live, item :: rest =>
    Traversal.andThen
      ⟨item.instr.effect pool capacity live, [.exec item.offset item.instr.opcode live.length]⟩
      fun live' => traverse pool capacity live' rest

/-- What follows the last complete instruction: the end of the code, or the fault where decoding
stopped. -/
def Stop.conclude (stop : Stop) (live : List Value) : Traversal :=
  match stop with
  | .done => ⟨.next live, []⟩
  | .unknownOpcode byte offset => ⟨.fault (.unknownOpcode byte offset) live, []⟩
  | .truncated op offset =>
    ⟨.fault (.truncatedInstruction offset) live, [.exec offset op live.length]⟩

@[simp] theorem Traversal.andThen_next (live : List Value) (log : List RunEvent)
    (continuation : List Value → Traversal) :
    Traversal.andThen ⟨.next live, log⟩ continuation
      = ⟨(continuation live).effect, log ++ (continuation live).log⟩ := rfl

@[simp] theorem Traversal.andThen_fault (e : RuntimeError) (live : List Value) (log : List RunEvent)
    (continuation : List Value → Traversal) :
    Traversal.andThen ⟨.fault e live, log⟩ continuation = ⟨.fault e live, log⟩ := rfl

/-- A traversal that ended in a fault is not continued. -/
theorem Traversal.andThen_of_fault {t : Traversal} {e : RuntimeError} {live : List Value}
    (h : t.effect = .fault e live) (continuation : List Value → Traversal) :
    t.andThen continuation = t := by
  rw [andThen, h]

/-- Continuing twice is continuing once with both continuations. -/
theorem Traversal.andThen_assoc (t : Traversal) (first second : List Value → Traversal) :
    (t.andThen first).andThen second = t.andThen fun live => (first live).andThen second := by
  obtain ⟨effect, log⟩ := t
  cases effect with
  | fault e live => rfl
  | next live =>
    rw [andThen_next, andThen_next]
    obtain ⟨effect', log'⟩ := first live
    cases effect' with
    | fault e live' => rfl
    | next live' => simp only [andThen_next, List.append_assoc]

/-- The end of the code adds nothing to a traversal. -/
@[simp] theorem Traversal.andThen_conclude_done (t : Traversal) :
    t.andThen Stop.done.conclude = t := by
  obtain ⟨effect, log⟩ := t
  cases effect with
  | fault e live => rfl
  | next live => rw [andThen_next, Stop.conclude, List.append_nil]

/-- **A traversal composes**: the second part of a sequence starts on the values that the first part
leaves. -/
theorem traverse_append (pool : Array Value) (capacity : Nat) (live : List Value)
    (first second : List Located) :
    traverse pool capacity live (first ++ second)
      = (traverse pool capacity live first).andThen fun live' =>
        traverse pool capacity live' second := by
  induction first generalizing live with
  | nil => rfl
  | cons item rest ih =>
    -- the first instruction is common to both sides, and only what continues it differs
    rw [List.cons_append, traverse, traverse, Traversal.andThen_assoc]
    congr 1
    funext live'
    exact ih live'

/-- **`execute` is a traversal** of the instructions that ends where decoding stopped. -/
theorem execute_holding (pool : Array Value) (stop : Stop) {capacity : Nat} {live : List Value}
    (hfit : live.length ≤ capacity) (events : Array RunEvent) (items : List Located) :
    execute pool stop (.holding capacity live) events items
      = ((((traverse pool capacity live items).andThen stop.conclude).effect).onStack capacity,
          events ++ ((traverse pool capacity live items).andThen stop.conclude).log.toArray) := by
  induction items generalizing live events with
  | nil =>
    rw [execute, traverse, Traversal.andThen_next]
    cases stop <;> simp [finish, Stop.conclude, Effect.onStack]
  | cons item rest ih =>
    rw [execute, step_holding pool hfit, OperandStack.height_holding, traverse,
      Traversal.andThen_assoc]
    cases heffect : item.instr.effect pool capacity live with
    | fault e live' => simp [Effect.onStack]
    | next live' =>
      -- the induction goes on with the values that the first instruction leaves, which fit again
      have hexecutes := item.instr.executes_effect pool capacity live
      rw [heffect] at hexecutes
      have hfit' : live'.length ≤ capacity := hexecutes.length_le hfit
      simp only [Effect.onStack, ih hfit', Traversal.andThen_next]
      simp

/-! ## The run of a unit -/

/-- The **traversal of a unit** from the empty stack. -/
def CodeUnit.traverse (u : CodeUnit) (capacity : Nat) : Traversal :=
  (StackMachine.traverse u.pool capacity [] (decode u.code).instrs).andThen
    (decode u.code).stop.conclude

/-- The outcome of a run of `u` with a given traversal. -/
def Traversal.outcome (u : CodeUnit) (capacity : Nat) (t : Traversal) : RunOutcome :=
  match t.effect with
  | .next live =>
    ⟨.ok live.head?, ⟨u, .holding capacity live, .halted⟩, t.log ++ [.halted live.length]⟩
  | .fault e live =>
    ⟨.error e, ⟨u, .holding capacity live, .faulted⟩, t.log ++ [.faulted e live.length]⟩

/-- **The run of a fresh machine is the traversal of its unit.** -/
theorem Machine.run_load (u : CodeUnit) (capacity : Nat) :
    (Machine.load u capacity).run = (u.traverse capacity).outcome u capacity := by
  have hexecute := execute_holding u.pool (decode u.code).stop
    (show ([] : List Value).length ≤ capacity from Nat.zero_le capacity) #[] (decode u.code).instrs
  rw [Machine.load, Machine.run, Machine.runCode, runFrom_eq_execute, OperandStack.empty_eq_holding]
  simp only [hexecute, Traversal.outcome, CodeUnit.traverse]
  cases ((StackMachine.traverse u.pool capacity [] (decode u.code).instrs).andThen
    (decode u.code).stop.conclude).effect with
  | next live => simp [Effect.onStack]
  | fault e live => simp [Effect.onStack]

/-- A run fails with the fault that its traversal ends in, and with no other. -/
theorem Machine.result_run_load_eq_error_iff {u : CodeUnit} {capacity : Nat} {e : RuntimeError} :
    (Machine.load u capacity).run.result = .error e ↔
      ∃ live, (u.traverse capacity).effect = .fault e live := by
  rw [Machine.run_load]
  simp only [Traversal.outcome]
  cases (u.traverse capacity).effect with
  | next live => simp
  | fault e' live => simp

end StackMachine
