import StackMachine.Proofs.Machine.Lockstep

/-! # Runs up to kinds

What a run does depends on the values in the pool only through their kinds, with one exception:
whether a divisor is zero. Two runs of the same code on constants of the same kinds halt with values
of the same kinds or end in the same fault, unless one of them divides by zero.

* **`Arith.kind?`** — the kind of a result, from the kinds of the operands.
* **`Arith.apply_cases`** — an operation on values does what it does on their kinds, or divides by
  zero.
* **`run_agrees_on_kinds`** — two runs on constants of the same kinds. -/

namespace StackMachine

/-! ## Arithmetic on kinds -/

/-- **The kind of a result**, if the operation goes with the kinds of its operands. -/
def Arith.kind? : Arith → Kind → Kind → Option Kind
  | .add, .text, .text => some .text
  | _, .number, .number => some .number
  | _, _, _ => none

/-- **What an operation does to values**: it has a result of the kind that the kinds of the operands
give, or divides by zero, or the kinds of the operands have no result and are named in the fault. -/
theorem Arith.apply_cases (op : Arith) (left right : Value) :
    (∃ v, op.apply left right = .ok v ∧ op.kind? left.kind right.kind = some v.kind) ∨
    op.apply left right = .error .divideByZero ∨
    op.apply left right = .error (.typeMismatch op left.kind right.kind) ∧
    op.kind? left.kind right.kind = none := by
  cases left with
  | number x =>
    cases right with
    | number y =>
      cases op with
      | add => exact Or.inl ⟨_, rfl, rfl⟩
      | subtract => exact Or.inl ⟨_, rfl, rfl⟩
      | multiply => exact Or.inl ⟨_, rfl, rfl⟩
      | divide =>
        rw [Arith.apply]
        by_cases hzero : y.isZero = true
        · exact Or.inr (Or.inl (if_pos hzero))
        · exact Or.inl ⟨_, if_neg hzero, rfl⟩
    | _ => cases op <;> exact Or.inr (Or.inr ⟨rfl, rfl⟩)
  | text s =>
    cases right with
    | text t =>
      cases op with
      | add => exact Or.inl ⟨_, rfl, rfl⟩
      | _ => exact Or.inr (Or.inr ⟨rfl, rfl⟩)
    | _ => cases op <;> exact Or.inr (Or.inr ⟨rfl, rfl⟩)
  | _ => cases op <;> cases right <;> exact Or.inr (Or.inr ⟨rfl, rfl⟩)

/-- **Arithmetic respects kinds**, when a division by zero is let pass. -/
theorem arithRespects_kind : ArithRespects (fun v v' => v.kind = v'.kind) (· = .divideByZero) := by
  intro op left left' right right' hleft hright
  obtain ⟨v, hv, hkind⟩ | hzero | ⟨herror, hkind⟩ := op.apply_cases left right
  · obtain ⟨v', hv', hkind'⟩ | hzero' | ⟨-, hkind'⟩ := op.apply_cases left' right'
    · rw [hleft, hright, hkind'] at hkind
      rw [hv, hv']
      exact .ok (Option.some.inj hkind).symm
    · rw [hzero']
      refine .passRight ?_ _
      rfl
    · rw [hleft, hright, hkind'] at hkind
      cases hkind
  · rw [hzero]
    refine .passLeft ?_ _
    rfl
  · obtain ⟨v', -, hkind'⟩ | hzero' | ⟨herror', -⟩ := op.apply_cases left' right'
    · rw [hleft, hright, hkind'] at hkind
      cases hkind
    · rw [hzero']
      refine .passRight ?_ _
      rfl
    · rw [herror, herror', hleft, hright]
      exact .error _

/-! ## Runs on constants of the same kinds -/

/-- Values have the same kinds in order when they have the same kind one by one. -/
theorem map_kind_eq_iff {values values' : List Value} :
    values.map Value.kind = values'.map Value.kind ↔
      List.Forall₂ (fun v v' => v.kind = v'.kind) values values' := by
  have hmapped : List.Forall₂ Eq (values.map Value.kind) (values'.map Value.kind) ↔
      List.Forall₂ (fun v v' => v.kind = v'.kind) values values' := by
    rw [List.forall₂_map_left_iff, List.forall₂_map_right_iff]
  rwa [List.forall₂_eq_eq_eq] at hmapped

/-- **Kinds do not depend on values.** Take two units with the same code, with constants that have
the same kinds in order, and run both on the same number of slots. If neither run divides by zero,
then both halt, with topmost values of one kind if there are any, or both fail with the same fault;
and the values that they leave have the same kinds in order. The runs log the same events, too. -/
theorem run_agrees_on_kinds {u u' : CodeUnit} (hcode : u.code = u'.code)
    (hkinds : u.pool.toList.map Value.kind = u'.pool.toList.map Value.kind) {capacity : Nat}
    (hzero : (Machine.load u capacity).run.result ≠ .error .divideByZero)
    (hzero' : (Machine.load u' capacity).run.result ≠ .error .divideByZero) :
    ((∃ top? top?', (Machine.load u capacity).run.result = .ok top? ∧
        (Machine.load u' capacity).run.result = .ok top?' ∧
          top?.map Value.kind = top?'.map Value.kind) ∨
      ∃ e, (Machine.load u capacity).run.result = .error e ∧
        (Machine.load u' capacity).run.result = .error e) ∧
    (Machine.load u capacity).run.machine.phase = (Machine.load u' capacity).run.machine.phase ∧
    (Machine.load u capacity).run.machine.stack.values.map Value.kind
      = (Machine.load u' capacity).run.machine.stack.values.map Value.kind ∧
    (Machine.load u capacity).run.events = (Machine.load u' capacity).run.events := by
  obtain ⟨e, rfl, hleft | hright⟩ | hagrees :=
    agrees_run_load arithRespects_kind hcode (map_kind_eq_iff.mp hkinds) capacity
  · exact absurd hleft hzero
  · exact absurd hright hzero'
  refine ⟨?_, hagrees.phase_eq, map_kind_eq_iff.mpr hagrees.values, hagrees.events_eq⟩
  obtain ⟨top?, top?', hok, hok', htop⟩ | hfault := hagrees.result
  · refine Or.inl ⟨top?, top?', hok, hok', ?_⟩
    cases htop with
    | none => rfl
    | some hkind => exact congrArg some hkind
  · exact Or.inr hfault

/-- Two texts are joined and left below a product of a number and nothing. On other texts and
another number the run fails with the same fault, and leaves another text. -/
theorem run_agrees_on_kinds_product :
    let code := encodeAll [.load 0, .load 1, .apply .add, .load 2, .load 3, .apply .multiply]
    let u : CodeUnit := ⟨code, #[.text "a", .text "b", .number (.zero false), .null]⟩
    let u' : CodeUnit := ⟨code, #[.text "", .text "c", .number .nan, .null]⟩
    (Machine.load u 3).run.result = .error (.typeMismatch .multiply .number .null) ∧
      (Machine.load u' 3).run.result = .error (.typeMismatch .multiply .number .null) ∧
      (Machine.load u 3).run.machine.stack.values = [.text "ab"] ∧
      (Machine.load u' 3).run.machine.stack.values = [.text "c"] ∧
      (Machine.load u 3).run.machine.stack.values.map Value.kind
        = (Machine.load u' 3).run.machine.stack.values.map Value.kind ∧
      (Machine.load u 3).run.events = (Machine.load u' 3).run.events := by
  intro code u u'
  have hresult : (Machine.load u 3).run.result
      = .error (.typeMismatch .multiply .number .null) := by decide +kernel
  have hresult' : (Machine.load u' 3).run.result
      = .error (.typeMismatch .multiply .number .null) := by decide +kernel
  have hzero : (Machine.load u 3).run.result ≠ .error .divideByZero := by simp [hresult]
  have hzero' : (Machine.load u' 3).run.result ≠ .error .divideByZero := by simp [hresult']
  have hcode : u.code = u'.code := rfl
  have hkinds : u.pool.toList.map Value.kind = u'.pool.toList.map Value.kind := rfl
  exact ⟨hresult, hresult', by decide +kernel, by decide +kernel,
    (run_agrees_on_kinds hcode hkinds hzero hzero').2.2⟩

end StackMachine
