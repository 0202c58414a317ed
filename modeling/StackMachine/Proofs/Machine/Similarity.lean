import StackMachine.Proofs.Binary64.Similarity
import StackMachine.Proofs.Machine.Lockstep

/-! # Runs up to the sign of zero

A run never shows which of the two zeros a constant is, nor which of the words that are not numbers.
Two runs of the same code on similar constants end in the same way, with similar values that have
the same texts: a zero divisor is a fault whatever its sign, so the infinity that would tell the
zeros apart never arises.

* **`Value.Similar`** — similar numbers, or equal values of another kind.
* **`arithRespects_similar`** — arithmetic takes similar operands to similar results or to the same
  fault.
* **`run_agrees_on_similar`** — two runs on similar constants. -/

namespace StackMachine

/-! ## Similar values -/

/-- **Similar values**: similar numbers; values of the other kinds are similar to themselves
only. -/
inductive Value.Similar : Value → Value → Prop where
  /-- Numbers that are similar. -/
  | number {x x' : Binary64} (h : x.Similar x') : Similar (.number x) (.number x')
  /-- The same text. -/
  | text (s : String) : Similar (.text s) (.text s)
  /-- The same truth value. -/
  | boolean (b : Bool) : Similar (.boolean b) (.boolean b)
  /-- The absent value. -/
  | null : Similar .null .null

/-- **Similar values have the same text.** -/
theorem Value.Similar.inspect_eq {v v' : Value} (h : v.Similar v') : v.inspect = v'.inspect := by
  cases h with
  | number hx => exact hx.print_eq
  | text s => rfl
  | boolean b => rfl
  | null => rfl

/-- Similar values, one by one, have the same texts in order. -/
theorem map_inspect_eq {values values' : List Value}
    (h : List.Forall₂ Value.Similar values values') :
    values.map Value.inspect = values'.map Value.inspect := by
  induction h with
  | nil => rfl
  | cons hvalue _ ih => rw [List.map_cons, List.map_cons, hvalue.inspect_eq, ih]

/-! ## Arithmetic on similar values -/

/-- **Arithmetic on similar numbers** gives similar numbers, or divides by zero on both sides. -/
theorem resultsAgree_numbers {x x' y y' : Binary64} (hx : x.Similar x') (hy : y.Similar y')
    (op : Arith) (pass : RuntimeError → Prop) :
    ResultsAgree Value.Similar pass (op.apply (.number x) (.number y))
      (op.apply (.number x') (.number y')) := by
  cases op with
  | add => exact .ok (.number (hx.add hy))
  | subtract => exact .ok (.number (hx.sub hy))
  | multiply => exact .ok (.number (hx.mul hy))
  | divide =>
    rw [Arith.apply, Arith.apply, ← hy.isZero_eq]
    by_cases hzero : y.isZero = true
    · rw [if_pos hzero, if_pos hzero]
      exact .error _
    · rw [if_neg hzero, if_neg hzero]
      exact .ok (.number (hx.div hy (eq_false_of_ne_true hzero)))

/-- **Arithmetic respects similarity**, and no fault has to be let pass. -/
theorem arithRespects_similar : ArithRespects Value.Similar fun _ => False := by
  intro op left left' right right' hleft hright
  cases hleft with
  | number hx =>
    cases hright with
    | number hy => exact resultsAgree_numbers hx hy op _
    | _ => cases op <;> exact .error _
  | text s =>
    cases hright with
    | text t =>
      cases op with
      | add => exact .ok (.text _)
      | _ => exact .error _
    | _ => cases op <;> exact .error _
  | _ => cases op <;> cases hright <;> exact .error _

/-! ## Runs on similar constants -/

/-- **The sign of a zero and the word of what is not a number cannot be observed.** Take two units
with the same code and constants that are similar one by one, and run both on the same number of
slots. Both runs halt, with similar topmost values if there are any, or both fail with the same
fault. In either case the values that they leave are similar one by one and have the same texts; and
the runs log the same events. -/
theorem run_agrees_on_similar {u u' : CodeUnit} (hcode : u.code = u'.code)
    (hpools : List.Forall₂ Value.Similar u.pool.toList u'.pool.toList) (capacity : Nat) :
    ((∃ top? top?', (Machine.load u capacity).run.result = .ok top? ∧
        (Machine.load u' capacity).run.result = .ok top?' ∧ Option.Rel Value.Similar top? top?') ∨
      ∃ e, (Machine.load u capacity).run.result = .error e ∧
        (Machine.load u' capacity).run.result = .error e) ∧
    (Machine.load u capacity).run.machine.phase = (Machine.load u' capacity).run.machine.phase ∧
    List.Forall₂ Value.Similar (Machine.load u capacity).run.machine.stack.values
      (Machine.load u' capacity).run.machine.stack.values ∧
    (Machine.load u capacity).run.machine.stack.values.map Value.inspect
      = (Machine.load u' capacity).run.machine.stack.values.map Value.inspect ∧
    (Machine.load u capacity).run.events = (Machine.load u' capacity).run.events := by
  obtain ⟨e, hnever, -⟩ | hagrees := agrees_run_load arithRespects_similar hcode hpools capacity
  · exact hnever.elim
  · exact ⟨hagrees.result, hagrees.phase_eq, hagrees.values, map_inspect_eq hagrees.values,
      hagrees.events_eq⟩

/-- A product of a zero and a word that is not a number is left below a quotient with that zero as
the divisor. The other zero and another such word give the same fault and a value with the same
text. -/
theorem run_agrees_on_similar_zero_divisor :
    let code := encodeAll [.load 0, .load 1, .apply .multiply, .load 1, .load 0, .apply .divide]
    let u : CodeUnit := ⟨code, #[.number (.zero false), .number .nan]⟩
    let u' : CodeUnit := ⟨code, #[.number (.zero true), .number ⟨0xfff0000000000001⟩]⟩
    u ≠ u' ∧ (Machine.load u 3).run.result = .error .divideByZero ∧
      (Machine.load u' 3).run.result = .error .divideByZero ∧
      (Machine.load u 3).run.machine.stack.values.map Value.inspect = ["NaN"] ∧
      (Machine.load u' 3).run.machine.stack.values.map Value.inspect = ["NaN"] := by
  intro code u u'
  have hpools : List.Forall₂ Value.Similar u.pool.toList u'.pool.toList :=
    .cons (.number (by decide)) (.cons (.number (by decide)) .nil)
  have hresult : (Machine.load u 3).run.result = .error .divideByZero := by decide +kernel
  have htexts : (Machine.load u 3).run.machine.stack.values.map Value.inspect = ["NaN"] := by
    decide +kernel
  have hcode : u.code = u'.code := rfl
  obtain ⟨⟨top?, top?', hok, -, -⟩ | ⟨e, he, he'⟩, -, -, hsame, -⟩ :=
    run_agrees_on_similar hcode hpools 3
  · simp [hresult] at hok
  · rw [hresult] at he
    cases he
    exact ⟨by decide +kernel, hresult, he', htexts, hsame ▸ htexts⟩

end StackMachine
