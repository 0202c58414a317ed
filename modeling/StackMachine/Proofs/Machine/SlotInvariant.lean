import StackMachine.Proofs.Machine.LiveValues

/-! # The slots of a machine at all times

The views of an operand stack trust a rule that its type does not state: the slots below the height
hold a value, and the slots from the height on are empty. This file shows that the rule is never
broken: not on a fresh machine, not between two instructions, not between the pops and the push of
one operation, not after the end or a fault, and not by running the same machine again.

* **`OperandStack.Sound capacity`** — the rule for a stack of `capacity` slots; the stacks that keep
  it are those that hold live values (`OperandStack.Sound.exists_holding`), and every pop and push
  keeps it.
* **`Instr.stages`** — the stacks that an instruction goes through, one for each pop and each push;
  **`stagesAlong`** — those of a sequence of instructions. They end with the stack that `step` and
  `execute` leave.
* **`Machine.course`** — the machines of one call of `Machine.run`, from the one before to the one
  after.
* **`machine_invariant`** — the rule holds of every machine in every call, and only the first call
  runs. -/

namespace StackMachine

/-! ## Sound stacks -/

namespace OperandStack

/-- **A sound stack** of `capacity` slots: values below the height, and nothing from there on. -/
structure Sound (capacity : Nat) (s : OperandStack) : Prop where
  /-- The number of slots never changes. -/
  size_slots : s.slots.size = capacity
  /-- The height is within the slots. -/
  height_le : s.height ≤ s.slots.size
  /-- A slot below the height holds a value. -/
  filled : ∀ index, index < s.height → ∃ v, s.slots[index]? = some (some v)
  /-- A slot at the height or above it is empty. -/
  free : ∀ index, s.height ≤ index → index < s.slots.size → s.slots[index]? = some none

/-- A stack that holds values which fit is sound. -/
theorem sound_holding {capacity : Nat} {live : List Value} (hfit : live.length ≤ capacity) :
    (holding capacity live).Sound capacity := by
  have hsize : (holding capacity live).slots.size = capacity := capacity_holding hfit
  have hvalues : (live.reverse.map some).length = live.length := by simp
  refine ⟨hsize, ?_, ?_, ?_⟩
  · rw [hsize]
    exact hfit
  · intro index hindex
    rw [height_holding] at hindex
    refine ⟨live.reverse.get ⟨index, by simpa using hindex⟩, ?_⟩
    rw [holding, List.getElem?_toArray, List.getElem?_append_left (by omega)]
    simp [hindex]
  · intro index habove hindex
    rw [height_holding] at habove
    rw [hsize] at hindex
    have hfree : index - live.length < capacity - live.length := by omega
    rw [holding, List.getElem?_toArray, List.getElem?_append_right (by omega), hvalues]
    simp [hfree]

/-- Slots that all hold a value are the values of a list. -/
theorem exists_eq_map_some {slots : List (Option Value)} (h : ∀ slot ∈ slots, ∃ v, slot = some v) :
    ∃ values : List Value, slots = values.map some := by
  induction slots with
  | nil => exact ⟨[], rfl⟩
  | cons slot rest ih =>
    obtain ⟨⟨v, rfl⟩, hrest⟩ := List.forall_mem_cons.mp h
    obtain ⟨values, rfl⟩ := ih hrest
    exact ⟨v :: values, rfl⟩

/-- **A sound stack holds live values**: the rule says all that there is to say about its slots. -/
theorem Sound.exists_holding {capacity : Nat} {s : OperandStack} (h : s.Sound capacity) :
    ∃ live, live.length ≤ capacity ∧ s = holding capacity live := by
  have hheight := h.height_le
  have hsize := h.size_slots
  have hfilled : ∀ slot ∈ s.slots.toList.take s.height, ∃ v, slot = some v := by
    intro slot hslot
    obtain ⟨index, hindex, hget⟩ := List.mem_take_iff_getElem.mp hslot
    obtain ⟨v, hv⟩ := h.filled index (by omega)
    refine ⟨v, ?_⟩
    simpa [← hget] using (Array.getElem?_eq_some_iff.mp hv).2
  have hfree : s.slots.toList.drop s.height = List.replicate (capacity - s.height) none := by
    rw [List.eq_replicate_iff]
    refine ⟨by simp [hsize], ?_⟩
    intro slot hslot
    obtain ⟨index, hindex, hget⟩ := List.mem_drop_iff_getElem.mp hslot
    rw [Array.length_toList, Nat.add_comm] at hindex
    have hnone := h.free (s.height + index) (by omega) hindex
    simpa [← hget] using (Array.getElem?_eq_some_iff.mp hnone).2
  obtain ⟨values, hvalues⟩ := exists_eq_map_some hfilled
  have hlength : values.length = s.height := by
    have hcount := congrArg List.length hvalues
    simpa [hheight] using hcount.symm
  refine ⟨values.reverse, by rw [List.length_reverse]; omega, ?_⟩
  -- the slots are those below the height, which the values fill, and those above it
  obtain ⟨slots, height⟩ := s
  simp only [holding, List.reverse_reverse, List.length_reverse, hlength, mk.injEq, and_true]
  rw [← hvalues, ← hfree, List.take_append_drop]

/-- The fresh stack is sound. -/
theorem sound_empty (capacity : Nat) : (empty capacity).Sound capacity := by
  rw [empty_eq_holding]
  exact sound_holding (Nat.zero_le capacity)

section Views

variable {capacity : Nat} {s : OperandStack}

/-- **A pop keeps a stack sound**, whether it finds a value or not. -/
theorem Sound.pop (h : s.Sound capacity) : s.pop.2.Sound capacity := by
  obtain ⟨live, hfit, rfl⟩ := h.exists_holding
  cases live with
  | nil => exact sound_holding hfit
  | cons v below =>
    rw [pop_holding_cons hfit]
    exact sound_holding (Nat.le_of_lt hfit)

/-- **A pop finds nothing only on a stack of height zero**: no slot below the height is empty. -/
theorem Sound.pop_eq_none_iff (h : s.Sound capacity) : s.pop.1 = none ↔ s.height = 0 := by
  obtain ⟨live, hfit, rfl⟩ := h.exists_holding
  cases live with
  | nil => simp
  | cons v below => simp [pop_holding_cons hfit]

/-- The view of the live values loses none of them. -/
theorem Sound.length_values (h : s.Sound capacity) : s.values.length = s.height := by
  obtain ⟨live, -, rfl⟩ := h.exists_holding
  simp

/-- The view of the topmost value fails only on a stack of height zero. -/
theorem Sound.top?_eq_none_iff (h : s.Sound capacity) : s.top? = none ↔ s.height = 0 := by
  obtain ⟨live, -, rfl⟩ := h.exists_holding
  simp

end Views

end OperandStack

/-! ## The stacks of an instruction -/

/-- The stack that an instruction or a run leaves. -/
def StepResult.stack : StepResult → OperandStack
  | .next stack => stack
  | .fault _ stack => stack

/-- **A push keeps a stack sound**, whether it finds room or not. -/
theorem OperandStack.Sound.pushValue {capacity : Nat} {s : OperandStack} (h : s.Sound capacity)
    (v : Value) : (pushValue s v).stack.Sound capacity := by
  obtain ⟨live, hfit, rfl⟩ := h.exists_holding
  rw [pushValue_holding hfit]
  by_cases hroom : live.length < capacity
  · rw [if_pos hroom]
    exact sound_holding hroom
  · rw [if_neg hroom]
    exact h

/-- **The stacks of an instruction**: the one it finds, and the one after each pop and each push
that it gets to. -/
def Instr.stages (pool : Array Value) (stack : OperandStack) : Instr → List OperandStack
  | .load index =>
    match pool[index.toNat]? with
    | some v => [stack, (pushValue stack v).stack]
    | none => [stack]
  | .apply op =>
    match stack.pop with
    | (none, afterRight) => [stack, afterRight]
    | (some right, afterRight) =>
      match afterRight.pop with
      | (none, afterLeft) => [stack, afterRight, afterLeft]
      | (some left, afterLeft) =>
        match op.apply left right with
        | .ok v => [stack, afterRight, afterLeft, (pushValue afterLeft v).stack]
        | .error _ => [stack, afterRight, afterLeft]

/-- The stacks of an instruction end with the one that its step leaves. -/
theorem Instr.getLast?_stages (i : Instr) (pool : Array Value) (stack : OperandStack) :
    (i.stages pool stack).getLast? = some (step pool stack i).stack := by
  cases i with
  | load index =>
    rw [stages, step, loadEntry]
    cases pool[index.toNat]? <;> rfl
  | apply op =>
    rw [stages, step, applyTop]
    rcases stack.pop with ⟨_ | right, afterRight⟩
    · rfl
    · dsimp only
      rcases afterRight.pop with ⟨_ | left, afterLeft⟩
      · rfl
      · dsimp only
        cases op.apply left right <;> rfl

/-- **An instruction goes through sound stacks only**, also where it stops half-way. -/
theorem Instr.sound_of_mem_stages {pool : Array Value} {capacity : Nat} {stack : OperandStack}
    (h : stack.Sound capacity) (i : Instr) : ∀ seen ∈ i.stages pool stack, seen.Sound capacity := by
  cases i with
  | load index =>
    rw [stages]
    cases pool[index.toNat]? with
    | none => simpa using h
    | some v => simpa using ⟨h, h.pushValue v⟩
  | apply op =>
    rw [stages]
    have hright : stack.pop.2.Sound capacity := h.pop
    generalize stack.pop = popped at hright ⊢
    rcases popped with ⟨_ | right, afterRight⟩
    · simpa using ⟨h, hright⟩
    · have hleft : afterRight.pop.2.Sound capacity := hright.pop
      dsimp only
      generalize afterRight.pop = popped at hleft ⊢
      rcases popped with ⟨_ | left, afterLeft⟩
      · simpa using ⟨h, hright, hleft⟩
      · dsimp only
        cases op.apply left right with
        | error e => simpa using ⟨h, hright, hleft⟩
        | ok v => simpa using ⟨h, hright, hleft, hleft.pushValue v⟩

/-- A step leaves a sound stack. -/
theorem OperandStack.Sound.step {capacity : Nat} {stack : OperandStack} (h : stack.Sound capacity)
    (pool : Array Value) (i : Instr) : (step pool stack i).stack.Sound capacity :=
  i.sound_of_mem_stages h _ (List.mem_of_getLast? (i.getLast?_stages pool stack))

/-! ## The stacks of a run -/

/-- **The stacks of a sequence of instructions**, up to the end or the first fault. -/
def stagesAlong (pool : Array Value) : OperandStack → List Located → List OperandStack
  | stack, [] => [stack]
  | stack, item :: rest =>
    item.instr.stages pool stack ++
      match step pool stack item.instr with
      | .next stack' => stagesAlong pool stack' rest
      | .fault _ _ => []

/-- The stacks of a sequence of instructions end with the one that its execution leaves. -/
theorem getLast?_stagesAlong (pool : Array Value) (stop : Stop) (stack : OperandStack)
    (events : Array RunEvent) (items : List Located) :
    (stagesAlong pool stack items).getLast?
      = some (execute pool stop stack events items).1.stack := by
  induction items generalizing stack events with
  | nil =>
    -- where decoding stopped, the stack stays as it is
    cases stop <;> rfl
  | cons item rest ih =>
    have hlast := item.instr.getLast?_stages pool stack
    rw [stagesAlong, execute]
    cases hstep : step pool stack item.instr with
    | next stack' =>
      simp only [List.getLast?_append,
        ih stack' (events.push (.exec item.offset item.instr.opcode stack.height))]
      rfl
    | fault e stack' =>
      rw [hstep] at hlast
      simp only [List.append_nil]
      exact hlast

/-- **Instructions go through sound stacks only.** -/
theorem sound_of_mem_stagesAlong {pool : Array Value} {capacity : Nat} {stack : OperandStack}
    (h : stack.Sound capacity) (items : List Located) :
    ∀ seen ∈ stagesAlong pool stack items, seen.Sound capacity := by
  induction items generalizing stack with
  | nil => simpa [stagesAlong] using h
  | cons item rest ih =>
    intro seen hseen
    rw [stagesAlong, List.mem_append] at hseen
    rcases hseen with hfirst | hrest
    · exact item.instr.sound_of_mem_stages h seen hfirst
    · -- the rest starts on the stack that the first instruction leaves
      have hnext := h.step pool item.instr
      cases hstep : step pool stack item.instr with
      | fault e stack' => simp [hstep] at hrest
      | next stack' =>
        rw [hstep] at hnext hrest
        exact ih hnext seen hrest

/-! ## The machines of a call -/

namespace Machine

/-- The stacks that a call goes through. A machine that is not ready does not run. -/
def stages (m : Machine) : List OperandStack :=
  match m.phase with
  | .ready => stagesAlong m.unit.pool m.stack (decode m.unit.code).instrs
  | _ => []

/-- **The machines of a call**: the one before it, the running one with each stack that it goes
through, and the one that it leaves. -/
def course (m : Machine) : List Machine :=
  m :: (m.stages.map fun stack => { m with stack := stack, phase := .running }) ++ [m.run.machine]

/-- The machine after a number of calls. -/
def afterRuns (m : Machine) : Nat → Machine
  | 0 => m
  | calls + 1 => (m.afterRuns calls).run.machine

/-- A machine that is not ready answers with its phase and stays as it is. -/
theorem run_of_phase_ne_ready {m : Machine} (h : m.phase ≠ .ready) :
    m.run = ⟨.error (.invalidPhase m.phase), m, []⟩ := by
  obtain ⟨unit, stack, phase⟩ := m
  cases phase with
  | ready => exact absurd rfl h
  | running => rfl
  | halted => rfl
  | faulted => rfl

/-- **A ready machine runs**: it keeps its unit and its stacks end with the one that it leaves, and
it halts with a result or is faulted with a fault. -/
theorem run_of_phase_eq_ready {m : Machine} (h : m.phase = .ready) :
    m.run.machine.unit = m.unit ∧ m.stages.getLast? = some m.run.machine.stack ∧
      ((∃ top?, m.run.result = .ok top? ∧ m.run.machine.phase = .halted) ∨
        ∃ e, m.run.result = .error e ∧ m.run.machine.phase = .faulted) := by
  have hlast := getLast?_stagesAlong m.unit.pool (decode m.unit.code).stop m.stack #[]
    (decode m.unit.code).instrs
  rw [stages, run, h]
  simp only [runCode, runFrom_eq_execute]
  rcases hexecute : execute m.unit.pool (decode m.unit.code).stop m.stack #[]
      (decode m.unit.code).instrs with
    ⟨stack | ⟨e, stack⟩, events⟩
  · rw [hexecute] at hlast
    exact ⟨rfl, hlast, Or.inl ⟨_, rfl, rfl⟩⟩
  · rw [hexecute] at hlast
    exact ⟨rfl, hlast, Or.inr ⟨e, rfl, rfl⟩⟩

/-- No call leaves a machine ready. -/
theorem phase_run_ne_ready (m : Machine) : m.run.machine.phase ≠ .ready := by
  by_cases h : m.phase = .ready
  · obtain ⟨-, -, ⟨top?, -, hphase⟩ | ⟨e, -, hphase⟩⟩ := run_of_phase_eq_ready h
    · simp [hphase]
    · simp [hphase]
  · rwa [run_of_phase_ne_ready h]

/-- **A call goes through sound stacks only**, and all its machines have the same unit. -/
theorem sound_of_mem_course {m : Machine} {capacity : Nat} (h : m.stack.Sound capacity) :
    ∀ seen ∈ m.course, seen.unit = m.unit ∧ seen.stack.Sound capacity := by
  have hstages : ∀ stack ∈ m.stages, stack.Sound capacity := by
    rw [stages]
    split
    · exact sound_of_mem_stagesAlong h _
    · simp
  have hleft : m.run.machine.unit = m.unit ∧ m.run.machine.stack.Sound capacity := by
    by_cases hready : m.phase = .ready
    · obtain ⟨hunit, hlast, -⟩ := run_of_phase_eq_ready hready
      exact ⟨hunit, hstages _ (List.mem_of_getLast? hlast)⟩
    · rw [run_of_phase_ne_ready hready]
      exact ⟨rfl, h⟩
  intro seen hseen
  simp only [course, List.cons_append, List.mem_cons, List.mem_append, List.mem_map,
    List.not_mem_nil, or_false] at hseen
  rcases hseen with rfl | ⟨stack, hstack, rfl⟩ | rfl
  · exact ⟨rfl, h⟩
  · exact ⟨rfl, hstages stack hstack⟩
  · exact hleft

/-- **Calls go through sound stacks only**, however many there are. -/
theorem sound_afterRuns {m : Machine} {capacity : Nat} (h : m.stack.Sound capacity) (calls : Nat) :
    (m.afterRuns calls).unit = m.unit ∧ (m.afterRuns calls).stack.Sound capacity := by
  induction calls with
  | zero => exact ⟨rfl, h⟩
  | succ calls ih =>
    -- what a call leaves is the last machine of its course
    have hmem : (m.afterRuns calls).run.machine ∈ (m.afterRuns calls).course := by simp [course]
    obtain ⟨hunit, hsound⟩ := sound_of_mem_course ih.2 _ hmem
    exact ⟨hunit.trans ih.1, hsound⟩

/-- **Only the first call changes a machine.** -/
theorem afterRuns_succ (m : Machine) (calls : Nat) : m.afterRuns (calls + 1) = m.run.machine := by
  induction calls with
  | zero => rfl
  | succ calls ih => rw [afterRuns, ih, run_of_phase_ne_ready m.phase_run_ne_ready]

end Machine

/-- **The slots of a machine are sound at all times.** In every call, whatever number of calls came
before, all machines from the one before to the one after have the unit that was loaded and a sound
stack of the given capacity: the view of the values shows as many as the height says, and only at
height zero is there no topmost value and nothing to pop. Between calls a machine is ready, halted
or faulted. The first call halts it with a result or leaves it faulted with the fault; every later
call answers with the phase and changes nothing. -/
theorem machine_invariant (u : CodeUnit) (capacity calls : Nat) :
    let fresh := Machine.load u capacity
    let m := fresh.afterRuns calls
    (∀ seen ∈ m.course,
      seen.unit = u ∧ seen.stack.Sound capacity ∧ seen.stack.values.length = seen.stack.height ∧
        (seen.stack.top? = none ↔ seen.stack.height = 0) ∧
          (seen.stack.pop.1 = none ↔ seen.stack.height = 0)) ∧
    (m.phase = .ready ∨ m.phase = .halted ∨ m.phase = .faulted) ∧
    ((∃ top?, fresh.run.result = .ok top? ∧ fresh.run.machine.phase = .halted) ∨
      ∃ e, fresh.run.result = .error e ∧ fresh.run.machine.phase = .faulted) ∧
    (0 < calls → m = fresh.run.machine ∧ m.run = ⟨.error (.invalidPhase m.phase), m, []⟩) := by
  intro fresh m
  have hfresh : fresh.stack.Sound capacity := OperandStack.sound_empty capacity
  obtain ⟨-, -, hfirst⟩ := Machine.run_of_phase_eq_ready (show fresh.phase = .ready from rfl)
  refine ⟨?_, ?_, hfirst, ?_⟩
  · obtain ⟨hunit, hsound⟩ := Machine.sound_afterRuns hfresh calls
    intro seen hseen
    obtain ⟨hseenUnit, hseenSound⟩ := Machine.sound_of_mem_course hsound seen hseen
    exact ⟨hseenUnit.trans hunit, hseenSound, hseenSound.length_values, hseenSound.top?_eq_none_iff,
      hseenSound.pop_eq_none_iff⟩
  · cases calls with
    | zero => exact Or.inl rfl
    | succ calls =>
      have hm : m = fresh.run.machine := fresh.afterRuns_succ calls
      rw [hm]
      rcases hfirst with ⟨top?, -, hphase⟩ | ⟨e, -, hphase⟩
      · exact Or.inr (Or.inl hphase)
      · exact Or.inr (Or.inr hphase)
  · intro hpos
    obtain ⟨earlier, rfl⟩ := Nat.exists_eq_succ_of_ne_zero (Nat.pos_iff_ne_zero.mp hpos)
    have hm : m = fresh.run.machine := fresh.afterRuns_succ earlier
    refine ⟨hm, Machine.run_of_phase_ne_ready ?_⟩
    rw [hm]
    exact fresh.phase_run_ne_ready

/-- An addition that finds a single value takes it off and then fails. The heights on the way show
the pop that succeeded and the one that did not, and a second call changes nothing. -/
theorem machine_invariant_lone_operand :
    let u : CodeUnit := ⟨encodeAll [.load 0, .apply .add], #[.text "a"]⟩
    let m := (Machine.load u 2).afterRuns 1
    ((Machine.load u 2).course.map fun seen => (seen.phase, seen.stack.height))
        = [(.ready, 0), (.running, 0), (.running, 1), (.running, 1), (.running, 0), (.running, 0),
          (.faulted, 0)] ∧
      (∀ seen ∈ (Machine.load u 2).course, seen.stack.Sound 2) ∧
      m.run = ⟨.error (.invalidPhase .faulted), m, []⟩ := by
  intro u m
  have hfresh := (machine_invariant u 2 0).1
  have hlater := (machine_invariant u 2 1).2.2.2 Nat.one_pos
  have hrun := Machine.run_load u 2
  have hphase : m.phase = .faulted := by
    show (Machine.load u 2).run.machine.phase = _
    rw [hrun]
    rfl
  refine ⟨?_, fun seen hseen => (hfresh seen hseen).2.1, ?_⟩
  · rw [Machine.course, hrun]
    rfl
  · rw [hlater.2, hphase]

end StackMachine
