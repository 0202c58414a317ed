import Mathlib.Data.List.Forall2
import StackMachine.Proofs.Machine.LiveValues

/-! # Two runs of the same code

Two units with the same code and constants that are related one by one run in **lockstep**: as long
as arithmetic takes related operands to related results, or to the same fault, every instruction
finds related stacks in both runs and leaves related stacks in both. Some faults may be let pass: a
run that ends in one of them need not agree with the other run.

* **`ResultsAgree R pass`** — two results of an operation that agree up to the relation `R`, or one
  of which is a fault that is let pass.
* **`ArithRespects R pass`** — related operands give results that agree.
* **`Lockstep R pass`** — two traversals that agree: the same fault or none, related values, and the
  same log.
* **`lockstep_effect`** and **`lockstep_traverse`** — one instruction and many, by induction.
* **`RunOutcome.Agrees R`** — two outcomes of runs that agree; `agrees_run_load` is what lockstep
  says of them. -/

namespace StackMachine

/-! ## Agreement of results and of traversals -/

/-- **Results that agree**: related values, or the same fault. A fault that is let pass agrees with
everything. -/
inductive ResultsAgree (R : Value → Value → Prop) (pass : RuntimeError → Prop) :
    Except RuntimeError Value → Except RuntimeError Value → Prop where
  /-- Both operations have a result. -/
  | ok {v v' : Value} (hvalue : R v v') : ResultsAgree R pass (.ok v) (.ok v')
  /-- Both operations fail in the same way. -/
  | error (e : RuntimeError) : ResultsAgree R pass (.error e) (.error e)
  /-- The first operation ends in a fault that is let pass. -/
  | passLeft {e : RuntimeError} (he : pass e) (result : Except RuntimeError Value) :
      ResultsAgree R pass (.error e) result
  /-- The second operation ends in a fault that is let pass. -/
  | passRight {e : RuntimeError} (he : pass e) (result : Except RuntimeError Value) :
      ResultsAgree R pass result (.error e)

/-- **A relation that arithmetic respects**: related operands give results that agree. -/
def ArithRespects (R : Value → Value → Prop) (pass : RuntimeError → Prop) : Prop :=
  ∀ (op : Arith) {left left' right right' : Value}, R left left' → R right right' →
    ResultsAgree R pass (op.apply left right) (op.apply left' right')

/-- **Traversals in lockstep**: they go on with related values, or stop at the same fault and leave
related values, and they have logged the same. A traversal that stops at a fault that is let pass
agrees with every other. -/
inductive Lockstep (R : Value → Value → Prop) (pass : RuntimeError → Prop) :
    Traversal → Traversal → Prop where
  /-- Both go on. -/
  | next {live live' : List Value} (hlive : List.Forall₂ R live live') (log : List RunEvent) :
      Lockstep R pass ⟨.next live, log⟩ ⟨.next live', log⟩
  /-- Both stop at the same fault. -/
  | fault (e : RuntimeError) {live live' : List Value} (hlive : List.Forall₂ R live live')
      (log : List RunEvent) :
      Lockstep R pass ⟨.fault e live, log⟩ ⟨.fault e live', log⟩
  /-- The first one stops at a fault that is let pass. -/
  | passLeft {e : RuntimeError} (he : pass e) (live : List Value) (log : List RunEvent)
      (t : Traversal) :
      Lockstep R pass ⟨.fault e live, log⟩ t
  /-- The second one stops at a fault that is let pass. -/
  | passRight {e : RuntimeError} (he : pass e) (live : List Value) (log : List RunEvent)
      (t : Traversal) :
      Lockstep R pass t ⟨.fault e live, log⟩

section Lockstep

variable {R : Value → Value → Prop} {pass : RuntimeError → Prop} {pool pool' : Array Value}
  {live live' : List Value}

/-! ## One instruction -/

/-- Related pools have related constants at every index, or none. -/
theorem rel_getElem?_of_forall₂ (hpools : List.Forall₂ R pool.toList pool'.toList) (index : Nat) :
    Option.Rel R pool[index]? pool'[index]? := by
  rw [← Array.getElem?_toList, ← Array.getElem?_toList]
  generalize pool.toList = constants, pool'.toList = constants' at hpools
  induction hpools generalizing index with
  | nil => exact .none
  | cons hvalue _ ih =>
    cases index with
    | zero => exact .some hvalue
    | succ index => exact ih index

/-- Related pools have the same size. -/
theorem size_eq_of_forall₂ (hpools : List.Forall₂ R pool.toList pool'.toList) :
    pool.size = pool'.size := by
  rw [← Array.length_toList, ← Array.length_toList, hpools.length_eq]

/-- **One instruction keeps the lockstep**, whatever the common log. -/
theorem lockstep_effect (harith : ArithRespects R pass)
    (hpools : List.Forall₂ R pool.toList pool'.toList) (hlive : List.Forall₂ R live live')
    (capacity : Nat) (i : Instr) (log : List RunEvent) :
    Lockstep R pass ⟨i.effect pool capacity live, log⟩ ⟨i.effect pool' capacity live', log⟩ := by
  cases i with
  | load index =>
    have hconstants := rel_getElem?_of_forall₂ hpools index.toNat
    rw [Instr.effect, Instr.effect, size_eq_of_forall₂ hpools, hlive.length_eq]
    generalize pool[index.toNat]? = constant?, pool'[index.toNat]? = constant?' at hconstants ⊢
    cases hconstants with
    | none => exact .fault _ hlive log
    | some hvalue =>
      dsimp only
      by_cases hroom : live'.length < capacity
      · rw [if_pos hroom, if_pos hroom]
        exact .next (.cons hvalue hlive) log
      · rw [if_neg hroom, if_neg hroom]
        exact .fault _ hlive log
  | apply op =>
    -- the stacks are equally high, so both operations find two values or neither does
    cases hlive with
    | nil => exact .fault _ .nil log
    | cons hright hrest =>
      cases hrest with
      | nil => exact .fault _ .nil log
      | @cons left left' below below' hleft hbelow =>
        have hresults := harith op hleft hright
        simp only [Instr.effect]
        generalize op.apply left _ = result, op.apply left' _ = result' at hresults ⊢
        cases hresults with
        | ok hvalue => exact .next (.cons hvalue hbelow) log
        | error e => exact .fault e hbelow log
        | passLeft he result => exact .passLeft he below log _
        | passRight he result => exact .passRight he below' log _

/-! ## Many instructions -/

/-- A common log in front keeps the lockstep. -/
theorem Lockstep.append_log {t t' : Traversal} (h : Lockstep R pass t t')
    (earlier : List RunEvent) :
    Lockstep R pass ⟨t.effect, earlier ++ t.log⟩ ⟨t'.effect, earlier ++ t'.log⟩ := by
  cases h with
  | next hlive log => exact .next hlive _
  | fault e hlive log => exact .fault e hlive _
  | passLeft he live log t => exact .passLeft he live _ _
  | passRight he live log t => exact .passRight he live _ _

/-- **Lockstep composes**: traversals in lockstep stay so, if what continues them does on related
values. -/
theorem Lockstep.andThen {t t' : Traversal} (h : Lockstep R pass t t')
    {next next' : List Value → Traversal}
    (hnext : ∀ live live', List.Forall₂ R live live' → Lockstep R pass (next live) (next' live')) :
    Lockstep R pass (t.andThen next) (t'.andThen next') := by
  cases h with
  | next hlive log => exact (hnext _ _ hlive).append_log log
  | fault e hlive log => exact .fault e hlive log
  | passLeft he live log t => exact .passLeft he live log _
  | passRight he live log t => exact .passRight he live log _

/-- **Many instructions keep the lockstep.** -/
theorem lockstep_traverse (harith : ArithRespects R pass)
    (hpools : List.Forall₂ R pool.toList pool'.toList) (hlive : List.Forall₂ R live live')
    (capacity : Nat) (items : List Located) :
    Lockstep R pass (traverse pool capacity live items) (traverse pool' capacity live' items) := by
  induction items generalizing live live' with
  | nil => exact .next hlive []
  | cons item rest ih =>
    rw [traverse, traverse, hlive.length_eq]
    refine (lockstep_effect harith hpools hlive capacity item.instr _).andThen ?_
    intro next next' hnext
    exact ih hnext

/-- What follows the last complete instruction keeps the lockstep. -/
theorem lockstep_conclude (hlive : List.Forall₂ R live live') (stop : Stop) :
    Lockstep R pass (stop.conclude live) (stop.conclude live') := by
  cases stop with
  | done => exact .next hlive []
  | unknownOpcode byte offset => exact .fault _ hlive []
  | truncated op offset =>
    rw [Stop.conclude, Stop.conclude, hlive.length_eq]
    exact .fault _ hlive _

/-- **Units with the same code and related constants are traversed in lockstep.** -/
theorem CodeUnit.lockstep_traverse {u u' : CodeUnit} (harith : ArithRespects R pass)
    (hcode : u.code = u'.code) (hpools : List.Forall₂ R u.pool.toList u'.pool.toList)
    (capacity : Nat) :
    Lockstep R pass (u.traverse capacity) (u'.traverse capacity) := by
  rw [CodeUnit.traverse, CodeUnit.traverse, hcode]
  refine (StackMachine.lockstep_traverse harith hpools .nil capacity _).andThen ?_
  intro live live' hlive
  exact lockstep_conclude hlive _

end Lockstep

/-! ## Outcomes of runs -/

/-- **Outcomes of runs that agree** up to a relation of values: both runs halt, with related topmost
values if there are any, or both fail in the same way; they leave related values and have logged the
same. -/
structure RunOutcome.Agrees (R : Value → Value → Prop) (r r' : RunOutcome) : Prop where
  /-- Both have a result, or both have the same fault. -/
  result : (∃ top? top?', r.result = .ok top? ∧ r'.result = .ok top?' ∧ Option.Rel R top? top?') ∨
    ∃ e, r.result = .error e ∧ r'.result = .error e
  /-- Both machines have halted, or both are faulted. -/
  phase_eq : r.machine.phase = r'.machine.phase
  /-- The values left are related one by one. -/
  values : List.Forall₂ R r.machine.stack.values r'.machine.stack.values
  /-- The logs are equal. -/
  events_eq : r.events = r'.events

/-- Related lists have related heads, or none. -/
theorem rel_head?_of_forall₂ {R : Value → Value → Prop} {live live' : List Value}
    (h : List.Forall₂ R live live') :
    Option.Rel R live.head? live'.head? := by
  cases h with
  | nil => exact .none
  | cons hvalue _ => exact .some hvalue

/-- **Runs of the same code on related constants agree**, unless one of them ends in a fault that is
let pass. -/
theorem agrees_run_load {R : Value → Value → Prop} {pass : RuntimeError → Prop} {u u' : CodeUnit}
    (harith : ArithRespects R pass) (hcode : u.code = u'.code)
    (hpools : List.Forall₂ R u.pool.toList u'.pool.toList) (capacity : Nat) :
    (∃ e, pass e ∧ ((Machine.load u capacity).run.result = .error e ∨
      (Machine.load u' capacity).run.result = .error e)) ∨
    (Machine.load u capacity).run.Agrees R (Machine.load u' capacity).run := by
  have hlockstep := CodeUnit.lockstep_traverse harith hcode hpools capacity
  rw [Machine.run_load, Machine.run_load]
  generalize u.traverse capacity = t, u'.traverse capacity = t' at hlockstep
  cases hlockstep with
  | next hlive log =>
    refine Or.inr ⟨Or.inl ⟨_, _, rfl, rfl, rel_head?_of_forall₂ hlive⟩, rfl, ?_, ?_⟩
    · simpa [Traversal.outcome] using hlive
    · simp [Traversal.outcome, hlive.length_eq]
  | fault e hlive log =>
    refine Or.inr ⟨Or.inr ⟨e, rfl, rfl⟩, rfl, ?_, ?_⟩
    · simpa [Traversal.outcome] using hlive
    · simp [Traversal.outcome, hlive.length_eq]
  | @passLeft e he live log t => exact Or.inl ⟨e, he, Or.inl rfl⟩
  | @passRight e he live log t => exact Or.inl ⟨e, he, Or.inr rfl⟩

end StackMachine
