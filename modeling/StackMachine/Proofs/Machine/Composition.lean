import StackMachine.Proofs.Listing.Lines
import StackMachine.Proofs.StackCheck.Soundness
import StackMachine.Proofs.StackCheck.Verdicts

/-! # Code behind code

Two pieces of code over one pool can be put one behind the other. If both halt on their own, so do
they together: the second piece finds the values of the first one below its own and does not touch
them, so it leaves its own values above them. A piece of complete instructions that fails on its own
fails in the same way with anything behind it, even with bytes that are no code at all.

* **`exists_decode_encodeAll_append`** — complete instructions are decoded as they are, whatever
  bytes follow them.
* **`Executes.effect_append`** and **`effect_traverse_append`** — the frame of one instruction and
  of many: what lies below the values that they work on stays, as long as the heights of the check
  fit above it.
* **`HaltsWith`** — a unit that halts with given values.
* **`run_append`** — the runs of two pieces of code and the run of both. -/

namespace StackMachine

/-! ## Decoding complete instructions and what follows them -/

/-- **Complete instructions are decoded as they are**, and what follows them is decoded from where
they end. -/
theorem exists_decode_encodeAll_append (first : List Instr) (rest : List UInt8) :
    ∃ second stop, decode (encodeAll first ++ rest)
      = ⟨locate first ++ locateFrom (encodeAll first).length #[] second, stop⟩ := by
  obtain ⟨second, tail, rfl, hstuck⟩ :=
    exists_encodeAll_of_decodeFrom (encodeAll first).length #[] rest
  rw [← List.length_append, ← encodeAll_append] at hstuck
  have hdecode := decode_of_stuck hstuck
  rw [locate_append, encodeAll_append, List.append_assoc] at hdecode
  exact ⟨second, _, hdecode⟩

/-! ## What lies below stays -/

section Frame

variable {pool : Array Value} {capacity capacity' offset : Nat} {live live' : List Value}
  {i : Instr} {profile next final : StackProfile}

/-- An instruction leaves as many values as the check says. -/
theorem Executes.length_eq (h : Executes pool capacity i live (.next live'))
    (hlive : live.length = profile.finalDepth)
    (hnext : profile.advance pool.size ⟨offset, i⟩ = .ok next) :
    live'.length = next.finalDepth := by
  obtain ⟨index, rfl, -, rfl⟩ | ⟨op, rfl, -, rfl⟩ := StackProfile.advance_eq_ok hnext
  · cases h with
    | load hv hroom => rw [List.length_cons, hlive]
  · cases h with
    | apply hv => simp [← hlive]

/-- **The frame of one instruction**: it does the same above other values, if the height that it
reaches fits above them. -/
theorem Executes.effect_append (h : Executes pool capacity i live (.next live'))
    (hlive : live.length = profile.finalDepth)
    (hnext : profile.advance pool.size ⟨offset, i⟩ = .ok next) {below : List Value}
    (hroom : next.maxDepth + below.length ≤ capacity') :
    i.effect pool capacity' (live ++ below) = .next (live' ++ below) := by
  obtain ⟨index, rfl, -, rfl⟩ | ⟨op, rfl, -, rfl⟩ := StackProfile.advance_eq_ok hnext
  · cases h with
    | load hv _ =>
      have hmax : max profile.maxDepth (profile.finalDepth + 1) + below.length ≤ capacity' := hroom
      have hfits : (live ++ below).length < capacity' := by
        rw [List.length_append, hlive]
        omega
      simp only [Instr.effect, hv, if_pos hfits, List.cons_append]
  · cases h with
    | apply hv => simp only [List.cons_append, Instr.effect, hv]

/-- **The frame of many instructions**: what they do from some values they do above others too, at
any offset and on any number of slots that the heights of the check leave room for. -/
theorem effect_traverse_append {instrs : List Instr} (hlive : live.length = profile.finalDepth)
    (hfollow : StackProfile.follow pool.size .done profile (locateFrom offset #[] instrs)
      = .ok final)
    (h : (traverse pool capacity live (locateFrom offset #[] instrs)).effect = .next live')
    {below : List Value} (hroom : final.maxDepth + below.length ≤ capacity') (offset' : Nat) :
    (traverse pool capacity' (live ++ below) (locateFrom offset' #[] instrs)).effect
      = .next (live' ++ below) := by
  induction instrs generalizing live profile offset offset' with
  | nil =>
    cases h
    rfl
  | cons i rest ih =>
    rw [locateFrom_cons, StackProfile.follow] at hfollow
    rw [locateFrom_cons, traverse] at h
    rw [locateFrom_cons, traverse]
    cases hnext : profile.advance pool.size ⟨offset, i⟩ with
    | error c => simp [hnext] at hfollow
    | ok next =>
      simp only [hnext] at hfollow
      have hexecutes := i.executes_effect pool capacity live
      cases heffect : i.effect pool capacity live with
      | fault e left => simp [heffect] at h
      | next middle =>
        rw [heffect] at hexecutes
        simp only [heffect, Traversal.andThen_next] at h
        -- the check never forgets a height, so the height that this instruction reaches fits too
        have hmax := StackProfile.maxDepth_le_of_follow hfollow
        have hframe : i.effect pool capacity' (live ++ below) = .next (middle ++ below) :=
          hexecutes.effect_append hlive hnext (by omega)
        simp only [hframe, Traversal.andThen_next]
        exact ih (hexecutes.length_eq hlive hnext) hfollow h _

end Frame

/-! ## Units that halt -/

/-- A traversal that did not stop is continued with the values that it leaves. -/
theorem Traversal.effect_andThen {t : Traversal} {live : List Value} (h : t.effect = .next live)
    (continuation : List Value → Traversal) :
    (t.andThen continuation).effect = (continuation live).effect := by
  rw [andThen, h]

/-- The traversal of a unit of complete instructions is that of the instructions. -/
theorem CodeUnit.traverse_encodeAll (instrs : List Instr) (pool : Array Value) (capacity : Nat) :
    (⟨encodeAll instrs, pool⟩ : CodeUnit).traverse capacity
      = StackMachine.traverse pool capacity [] (locate instrs) := by
  rw [CodeUnit.traverse, decode_encodeAll, Traversal.andThen_conclude_done]

/-- **A unit halts with values** on a number of slots: its run ends without a fault, leaves these
values, bottom first, and gives the last one. -/
structure HaltsWith (u : CodeUnit) (capacity : Nat) (values : List Value) : Prop where
  /-- The run gives the topmost value, if there is one. -/
  result_eq : (Machine.load u capacity).run.result = .ok values.getLast?
  /-- The machine has halted. -/
  phase_eq : (Machine.load u capacity).run.machine.phase = .halted
  /-- The values are left on the stack. -/
  values_eq : (Machine.load u capacity).run.machine.stack.values = values

/-- A unit halts with the values that its traversal leaves. -/
theorem haltsWith_iff {u : CodeUnit} {capacity : Nat} {values : List Value} :
    HaltsWith u capacity values ↔ (u.traverse capacity).effect = .next values.reverse := by
  constructor
  · rintro ⟨hresult, -, hvalues⟩
    rw [Machine.run_load, Traversal.outcome] at hresult hvalues
    cases heffect : (u.traverse capacity).effect with
    | fault e live => simp [heffect] at hresult
    | next live =>
      simp only [heffect, OperandStack.values_holding] at hvalues
      rw [← hvalues, List.reverse_reverse]
  · intro heffect
    have hrun : (Machine.load u capacity).run
        = ⟨.ok values.reverse.head?, ⟨u, .holding capacity values.reverse, .halted⟩,
          (u.traverse capacity).log ++ [.halted values.reverse.length]⟩ := by
      simp only [Machine.run_load, Traversal.outcome, heffect]
    rw [List.head?_reverse] at hrun
    refine ⟨by rw [hrun], by rw [hrun], ?_⟩
    rw [hrun, OperandStack.values_holding, List.reverse_reverse]

/-- **A unit that halts** consists of complete instructions, which the check accepts and a traversal
goes through. -/
theorem HaltsWith.exists_traverse {code : List UInt8} {pool : Array Value} {capacity : Nat}
    {values : List Value} (h : HaltsWith ⟨code, pool⟩ capacity values) :
    ∃ instrs profile, code = encodeAll instrs ∧ (⟨code, pool⟩ : CodeUnit).check = .ok profile ∧
      StackProfile.follow pool.size .done ⟨0, 0⟩ (locate instrs) = .ok profile ∧
      (traverse pool capacity [] (locate instrs)).effect = .next values.reverse := by
  cases hcheck : (⟨code, pool⟩ : CodeUnit).check with
  | error c => exact absurd h.result_eq (CodeUnit.result_ne_ok_of_check hcheck capacity _)
  | ok profile =>
    obtain ⟨-, hstop⟩ := CodeUnit.follow_of_check hcheck
    obtain ⟨instrs, rfl⟩ := exists_encodeAll_of_stop_eq_done hstop
    have heffect := haltsWith_iff.mp h
    rw [CodeUnit.traverse_encodeAll] at heffect
    rw [CodeUnit.check_of_encodeAll rfl] at hcheck
    exact ⟨instrs, profile, rfl, rfl, hcheck, heffect⟩

/-- **Two units that halt make one that halts**: the values of the second are left above those of
the first. -/
theorem HaltsWith.append {pool : Array Value} {first second : List UInt8}
    {capacityFirst capacitySecond : Nat} {valuesFirst valuesSecond : List Value}
    (hfirst : HaltsWith ⟨first, pool⟩ capacityFirst valuesFirst)
    (hsecond : HaltsWith ⟨second, pool⟩ capacitySecond valuesSecond) :
    ∃ profileFirst profileSecond, (⟨first, pool⟩ : CodeUnit).check = .ok profileFirst ∧
      (⟨second, pool⟩ : CodeUnit).check = .ok profileSecond ∧
      ∀ capacity,
        max profileFirst.maxDepth (valuesFirst.length + profileSecond.maxDepth) ≤ capacity →
        HaltsWith ⟨first ++ second, pool⟩ capacity (valuesFirst ++ valuesSecond) := by
  obtain ⟨instrsFirst, profileFirst, rfl, hcheckFirst, hfollowFirst, heffectFirst⟩ :=
    hfirst.exists_traverse
  obtain ⟨instrsSecond, profileSecond, rfl, hcheckSecond, hfollowSecond, heffectSecond⟩ :=
    hsecond.exists_traverse
  refine ⟨profileFirst, profileSecond, hcheckFirst, hcheckSecond, ?_⟩
  intro capacity hcapacity
  -- the first part from the empty stack, the second part above the values of the first
  have hroomFirst : profileFirst.maxDepth + ([] : List Value).length ≤ capacity := by
    rw [List.length_nil]
    omega
  have hroomSecond : profileSecond.maxDepth + valuesFirst.reverse.length ≤ capacity := by
    rw [List.length_reverse]
    omega
  have hpartFirst := effect_traverse_append rfl hfollowFirst heffectFirst hroomFirst 0
  rw [List.append_nil, List.append_nil, ← locate] at hpartFirst
  have hpartSecond := effect_traverse_append rfl hfollowSecond heffectSecond hroomSecond
    (encodeAll instrsFirst).length
  rw [haltsWith_iff, ← encodeAll_append, CodeUnit.traverse_encodeAll, locate_append,
    traverse_append, Traversal.effect_andThen hpartFirst, List.reverse_append]
  exact hpartSecond

/-! ## Units that fail -/

/-- **A fault of complete instructions is not changed by what follows them.** -/
theorem CodeUnit.traverse_append_of_fault {pool : Array Value} {instrs : List Instr}
    {capacity : Nat} {e : RuntimeError} {live : List Value}
    (h : ((⟨encodeAll instrs, pool⟩ : CodeUnit).traverse capacity).effect = .fault e live)
    (rest : List UInt8) :
    (⟨encodeAll instrs ++ rest, pool⟩ : CodeUnit).traverse capacity
      = (⟨encodeAll instrs, pool⟩ : CodeUnit).traverse capacity := by
  obtain ⟨second, stop, hdecode⟩ := exists_decode_encodeAll_append instrs rest
  rw [CodeUnit.traverse_encodeAll] at h ⊢
  rw [CodeUnit.traverse, hdecode, traverse_append, Traversal.andThen_assoc,
    Traversal.andThen_of_fault h]

/-- **Runs of code behind code.** If two pieces of code over one pool halt, each on its own and on
any number of slots, then both pass the check, and one behind the other they halt with the values of
the first followed by those of the second, whenever there are slots for the greatest height of the
first and, above its values, for that of the second. If a piece of code that can be listed fails, it
fails with the same fault and the same stack with any bytes behind it. -/
theorem run_append (pool : Array Value) (first second : List UInt8) :
    (∀ capacityFirst capacitySecond valuesFirst valuesSecond,
      HaltsWith ⟨first, pool⟩ capacityFirst valuesFirst →
      HaltsWith ⟨second, pool⟩ capacitySecond valuesSecond →
      ∃ profileFirst profileSecond, (⟨first, pool⟩ : CodeUnit).check = .ok profileFirst ∧
        (⟨second, pool⟩ : CodeUnit).check = .ok profileSecond ∧
        ∀ capacity,
          max profileFirst.maxDepth (valuesFirst.length + profileSecond.maxDepth) ≤ capacity →
          HaltsWith ⟨first ++ second, pool⟩ capacity (valuesFirst ++ valuesSecond)) ∧
    ∀ text capacity e, listCode first = .ok text →
      (Machine.load ⟨first, pool⟩ capacity).run.result = .error e →
      (Machine.load ⟨first ++ second, pool⟩ capacity).run.result = .error e ∧
        (Machine.load ⟨first ++ second, pool⟩ capacity).run.machine.phase = .faulted ∧
        (Machine.load ⟨first ++ second, pool⟩ capacity).run.machine.stack
          = (Machine.load ⟨first, pool⟩ capacity).run.machine.stack := by
  constructor
  · intro capacityFirst capacitySecond valuesFirst valuesSecond hfirst hsecond
    exact hfirst.append hsecond
  intro text capacity e htext herror
  obtain ⟨instrs, rfl⟩ := exists_encodeAll_of_stop_eq_done (stop_eq_done_of_listCode htext)
  obtain ⟨live, heffect⟩ := Machine.result_run_load_eq_error_iff.mp herror
  have htraverse := CodeUnit.traverse_append_of_fault heffect second
  simp only [Machine.run_load, Traversal.outcome, htraverse, heffect]
  exact ⟨trivial, trivial, trivial⟩

/-- A concatenation, tried on five slots, and a single load need two slots when the load comes
second; and a subtraction of texts fails before a byte behind it that is no opcode. -/
theorem run_append_two_slots :
    let pool : Array Value := #[.text "a", .text "b"]
    let joined := encodeAll [.load 0, .load 1, .apply .add]
    let failing := encodeAll [.load 0, .load 1, .apply .subtract]
    HaltsWith ⟨joined, pool⟩ 5 [.text "ab"] ∧ HaltsWith ⟨encodeAll [.load 1], pool⟩ 1 [.text "b"] ∧
      HaltsWith ⟨joined ++ encodeAll [.load 1], pool⟩ 2 [.text "ab", .text "b"] ∧
      (Machine.load ⟨failing, pool⟩ 2).run.result = .error (.typeMismatch .subtract .text .text) ∧
      (Machine.load ⟨failing ++ [0xee], pool⟩ 2).run.result
        = .error (.typeMismatch .subtract .text .text) := by
  intro pool joined failing
  have hjoined : HaltsWith ⟨joined, pool⟩ 5 [.text "ab"] := by
    rw [haltsWith_iff, CodeUnit.traverse_encodeAll]
    rfl
  have hload : HaltsWith ⟨encodeAll [.load 1], pool⟩ 1 [.text "b"] := by
    rw [haltsWith_iff, CodeUnit.traverse_encodeAll]
    rfl
  have hfailing : (Machine.load ⟨failing, pool⟩ 2).run.result
      = .error (.typeMismatch .subtract .text .text) :=
    congrArg RunOutcome.result (Machine.run_load ⟨failing, pool⟩ 2)
  have hcheckJoined : (⟨joined, pool⟩ : CodeUnit).check = .ok ⟨2, 1⟩ := CodeUnit.check_eq_follow _
  have hcheckLoad : (⟨encodeAll [.load 1], pool⟩ : CodeUnit).check = .ok ⟨1, 1⟩ :=
    CodeUnit.check_eq_follow _
  obtain ⟨profileFirst, profileSecond, hfirst, hsecond, hboth⟩ :=
    (run_append pool joined (encodeAll [.load 1])).1 5 1 _ _ hjoined hload
  cases hcheckJoined.symm.trans hfirst
  cases hcheckLoad.symm.trans hsecond
  have hfault := (run_append pool failing [0xee]).2 _ 2 _ (listCode_encodeAll _) hfailing
  exact ⟨hjoined, hload, hboth 2 (Nat.le_refl 2), hfailing, hfault.1⟩

end StackMachine
