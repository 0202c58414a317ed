import StackMachine.Proofs.Machine.FaultSite
import StackMachine.Proofs.Machine.Kinds

/-! # Kinds along code

The kinds of the constants of a pool tell the kinds of all values that instructions compute from
them. They can be followed along the instructions without running them, in the same way as the
heights of the stack: a load adds the kind of its constant, and an operation replaces the kinds of
its operands by that of its result. As long as this is possible, a run can end in two ways only,
which kinds know nothing about: the stack overflows, or a divisor is zero.

* **`Instr.kinds?`** — the kinds on the stack after an instruction.
* **`OfKinds capacity kinds effect`** — the machine did what kinds predict on a stack of `capacity`
  slots.
* **`Executes.ofKinds`** and **`ofKinds_traverse`** — one instruction and many, by induction.
* **`Executes.eq_divide`** and **`Instr.effect_apply_of_kind?_eq_none`** — which instructions divide
  by zero, and which fail on the kinds of their operands. -/

namespace StackMachine

/-! ## Kinds on the stack -/

/-- **The kinds behind an operation**, if it goes with those of its operands; the right operand is
on top. -/
def Arith.kinds? (op : Arith) : List Kind → Option (List Kind)
  | right :: left :: below => (op.kind? left right).map fun kind => kind :: below
  | _ => none

/-- **The kinds behind an instruction**, if its constant exists and its operands go with it. -/
def Instr.kinds? (pool : Array Value) (kinds : List Kind) : Instr → Option (List Kind)
  | .load index => pool[index.toNat]?.map fun v => v.kind :: kinds
  | .apply op => op.kinds? kinds

/-- An operation whose operands go with it finds two kinds and leaves one. -/
theorem Arith.exists_of_kinds? {op : Arith} {kinds next : List Kind}
    (h : op.kinds? kinds = some next) :
    ∃ left right below kind, kinds = right :: left :: below ∧ op.kind? left right = some kind ∧
      next = kind :: below := by
  rcases kinds with _ | ⟨right, _ | ⟨left, below⟩⟩
  · cases h
  · cases h
  · obtain ⟨kind, hkind, rfl⟩ := Option.map_eq_some_iff.mp h
    exact ⟨left, right, below, kind, rfl, hkind, rfl⟩

/-! ## What kinds predict -/

/-- **What kinds predict** of a machine with `capacity` slots. -/
inductive OfKinds (capacity : Nat) (kinds : List Kind) : Effect → Prop where
  /-- The live values are of these kinds. -/
  | next {live : List Value} (hlive : live.map Value.kind = kinds) :
      OfKinds capacity kinds (.next live)
  /-- The stack overflows. -/
  | overflow (live : List Value) : OfKinds capacity kinds (.fault (.stackOverflow capacity) live)
  /-- A divisor is zero. -/
  | divideByZero (live : List Value) : OfKinds capacity kinds (.fault .divideByZero live)

section Flow

variable {pool : Array Value} {capacity : Nat} {live : List Value} {kinds : List Kind}

/-- **One instruction does what kinds predict.** -/
theorem Executes.ofKinds {i : Instr} {effect : Effect} (h : Executes pool capacity i live effect)
    (hnext : i.kinds? pool (live.map Value.kind) = some kinds) : OfKinds capacity kinds effect := by
  cases h with
  | load hv hroom =>
    rw [Instr.kinds?, hv] at hnext
    exact .next (Option.some.inj hnext)
  | overflow hv hfull => exact .overflow live
  | outOfRange hindex =>
    rw [Instr.kinds?, Array.getElem?_eq_none hindex] at hnext
    cases hnext
  | @apply op left right v below hv =>
    obtain ⟨v', hv', hkind⟩ | hzero | ⟨hmismatch, -⟩ := op.apply_cases left right
    · rw [hv] at hv'
      cases hv'
      rw [Instr.kinds?, List.map_cons, List.map_cons, Arith.kinds?, hkind] at hnext
      exact .next (Option.some.inj hnext)
    · rw [hv] at hzero
      cases hzero
    · rw [hv] at hmismatch
      cases hmismatch
  | @operands op left right below e he =>
    obtain ⟨v, hv, -⟩ | hzero | ⟨-, hkind⟩ := op.apply_cases left right
    · rw [he] at hv
      cases hv
    · rw [he] at hzero
      cases hzero
      exact .divideByZero below
    · -- operands that do not go with the operation have no kinds behind it
      rw [Instr.kinds?, List.map_cons, List.map_cons, Arith.kinds?, hkind] at hnext
      cases hnext
  | underflow hfew =>
    obtain ⟨left, right, below, kind, hkinds, -, -⟩ := Arith.exists_of_kinds? hnext
    have hlength := congrArg List.length hkinds
    simp only [List.length_map, List.length_cons] at hlength
    omega

/-- **Many instructions do what kinds predict**, followed along them. -/
theorem ofKinds_traverse {items : List Located}
    (h : (items.map Located.instr).foldlM (Instr.kinds? pool) (live.map Value.kind) = some kinds) :
    OfKinds capacity kinds (traverse pool capacity live items).effect := by
  induction items generalizing live with
  | nil => exact .next (Option.some.inj h)
  | cons item rest ih =>
    rw [List.map_cons, List.foldlM_cons, Option.bind_eq_bind, Option.bind_eq_some_iff] at h
    obtain ⟨next, hnext, hrest⟩ := h
    have hstep := (item.instr.executes_effect pool capacity live).ofKinds hnext
    rw [traverse]
    generalize item.instr.effect pool capacity live = effect at hstep
    cases hstep with
    | next hlive =>
      rw [← hlive] at hrest
      exact ih hrest
    | overflow live' => exact .overflow live'
    | divideByZero live' => exact .divideByZero live'

/-! ## Faults of operands -/

/-- Only a division divides by zero, and it has numbers as operands. -/
theorem Arith.eq_divide_of_apply {op : Arith} {left right : Value}
    (h : op.apply left right = .error .divideByZero) :
    op = .divide ∧ left.kind = .number ∧ right.kind = .number := by
  cases left with
  | number x =>
    cases right with
    | number y =>
      cases op with
      | divide => exact ⟨rfl, rfl, rfl⟩
      | _ => cases h
    | _ => cases op <;> cases h
  | _ => cases op <;> cases right <;> cases h

/-- **Only a division divides by zero**, whatever the values. -/
theorem Executes.eq_divide {i : Instr} {left : List Value}
    (h : Executes pool capacity i live (.fault .divideByZero left)) : i = .apply .divide := by
  cases h with
  | operands he => rw [(Arith.eq_divide_of_apply he).1]

/-- An operation whose operands do not go with it fails and names their kinds. -/
theorem Arith.apply_of_kind?_eq_none {op : Arith} {left right : Value}
    (h : op.kind? left.kind right.kind = none) :
    op.apply left right = .error (.typeMismatch op left.kind right.kind) := by
  obtain ⟨v, -, hkind⟩ | hzero | ⟨hmismatch, -⟩ := op.apply_cases left right
  · rw [h] at hkind
    cases hkind
  · -- a division by zero has operands that go with it
    obtain ⟨rfl, hleft, hright⟩ := Arith.eq_divide_of_apply hzero
    rw [hleft, hright] at h
    cases h
  · exact hmismatch

/-- **An operation that finds kinds which do not go with it** fails on them. -/
theorem Instr.effect_apply_of_kind?_eq_none {op : Arith} {leftKind rightKind : Kind}
    {below : List Kind} (hlive : live.map Value.kind = rightKind :: leftKind :: below)
    (hkind : op.kind? leftKind rightKind = none) :
    ∃ left, (Instr.apply op).effect pool capacity live
      = .fault (.typeMismatch op leftKind rightKind) left := by
  rcases live with _ | ⟨right, _ | ⟨left, rest⟩⟩
  · cases hlive
  · cases hlive
  · simp only [List.map_cons, List.cons.injEq] at hlive
    obtain ⟨rfl, rfl, -⟩ := hlive
    refine ⟨rest, ?_⟩
    simp only [Instr.effect, Arith.apply_of_kind?_eq_none hkind]

end Flow

end StackMachine
