import StackMachine.Proofs.Machine.LiveValues

/-! # Where a run fails

A fault tells what went wrong, and only some faults tell where. The log of the run does: every
instruction is logged before it executes, so the last one logged is the one that failed. A byte that
is no opcode is not logged, and there the fault itself names the offset.

* **`RunOutcome.faultSite?`** — the offset of the instruction at which a run failed, with its opcode
  if it has one.
* **`faultSite?_andThen`** — the site of a fault does not depend on what was executed before it.
* **`exists_executes_of_traverse`** — instructions that fail do so at one of them, on the values
  that those before it leave. -/

namespace StackMachine

/-! ## Sites in logs and outcomes -/

/-- The instruction that an event reports. -/
def RunEvent.site? : RunEvent → Option (Nat × Opcode)
  | .exec offset op _ => some (offset, op)
  | .halted _ => none
  | .faulted _ _ => none

/-- The last instruction of a log. -/
def lastSite? (log : List RunEvent) : Option (Nat × Opcode) :=
  (log.filterMap RunEvent.site?).getLast?

/-- The site of a fault, given the log up to it. -/
def RuntimeError.site? (e : RuntimeError) (log : List RunEvent) : Option (Nat × Option Opcode) :=
  match e with
  | .unknownOpcode _ offset => some (offset, none)
  | _ => (lastSite? log).map fun site => (site.1, some site.2)

/-- The **site of the fault** of a run: the offset of the instruction that failed, and its opcode if
it has one. -/
def RunOutcome.faultSite? (r : RunOutcome) : Option (Nat × Option Opcode) :=
  match r.result with
  | .ok _ => none
  | .error e => e.site? r.events

/-- The site of the fault of a traversal. -/
def Traversal.faultSite? (t : Traversal) : Option (Nat × Option Opcode) :=
  match t.effect with
  | .next _ => none
  | .fault e _ => e.site? t.log

/-- An event that reports no instruction does not change the last one. -/
theorem lastSite?_append_of_site?_eq_none (log : List RunEvent) {event : RunEvent}
    (h : event.site? = none) :
    lastSite? (log ++ [event]) = lastSite? log := by
  rw [lastSite?, List.filterMap_append, List.filterMap_cons_none h, List.filterMap_nil,
    List.append_nil, lastSite?]

/-- The last instruction of a log is the last one of any log that ends with it. -/
theorem lastSite?_append {log : List RunEvent} {site : Nat × Opcode} (earlier : List RunEvent)
    (h : lastSite? log = some site) : lastSite? (earlier ++ log) = some site := by
  rw [lastSite?] at h ⊢
  rw [List.filterMap_append, List.getLast?_append, h]
  rfl

/-- The site of a fault with a longer log in front. -/
theorem RuntimeError.site?_append {e : RuntimeError} {log : List RunEvent}
    {site : Nat × Option Opcode} (earlier : List RunEvent) (h : e.site? log = some site) :
    e.site? (earlier ++ log) = some site := by
  unfold RuntimeError.site? at h ⊢
  split at h
  · exact h
  · obtain ⟨last, hlast, hsite⟩ := Option.map_eq_some_iff.mp h
    rw [lastSite?_append earlier hlast, Option.map_some, hsite]

/-- **A run fails where its traversal does.** -/
theorem Machine.faultSite?_run_load (u : CodeUnit) (capacity : Nat) :
    (Machine.load u capacity).run.faultSite? = (u.traverse capacity).faultSite? := by
  rw [Machine.run_load, RunOutcome.faultSite?, Traversal.faultSite?, Traversal.outcome]
  cases (u.traverse capacity).effect with
  | next live => rfl
  | fault e live =>
    -- the closing event of the log reports no instruction
    show e.site? ((u.traverse capacity).log ++ [.faulted e live.length])
      = e.site? (u.traverse capacity).log
    unfold RuntimeError.site?
    split
    · rfl
    · rw [lastSite?_append_of_site?_eq_none _ rfl]

/-! ## Sites in traversals -/

/-- **The site of a fault does not depend on what was executed before it.** -/
theorem faultSite?_andThen {t : Traversal} {live : List Value}
    {continuation : List Value → Traversal} {site : Nat × Option Opcode}
    (ht : t.effect = .next live) (hsite : (continuation live).faultSite? = some site) :
    (t.andThen continuation).faultSite? = some site := by
  obtain ⟨effect, log⟩ := t
  subst ht
  rw [Traversal.andThen_next]
  unfold Traversal.faultSite? at hsite ⊢
  cases hcontinuation : (continuation live).effect with
  | next live' => simp [hcontinuation] at hsite
  | fault e live' =>
    simp only [hcontinuation] at hsite ⊢
    exact RuntimeError.site?_append log hsite

/-- The site of an instruction that fails is the one logged for it: it fails in no way that a byte
without instruction does. -/
theorem Executes.site? {pool : Array Value} {capacity : Nat} {i : Instr} {live live' : List Value}
    {e : RuntimeError} (h : Executes pool capacity i live (.fault e live')) (offset : Nat)
    (op : Opcode) (height : Nat) :
    e.site? [.exec offset op height] = some (offset, some op) := by
  cases h with
  | overflow hv hfull => rfl
  | outOfRange hindex => rfl
  | underflow hfew => rfl
  | operands he =>
    -- an operation fails on its operands, never with an unknown opcode
    have hoperands := operandFault_of_apply he
    cases hoperands <;> rfl

/-- **Instructions that fail do so at one of them**: those before it go on, and it fails on the
values that they leave. -/
theorem exists_executes_of_traverse {pool : Array Value} {capacity : Nat} {live left : List Value}
    {items : List Located} {e : RuntimeError}
    (h : (traverse pool capacity live items).effect = .fault e left) :
    ∃ first item rest middle, items = first ++ item :: rest ∧
      (traverse pool capacity live first).effect = .next middle ∧
      Executes pool capacity item.instr middle (.fault e left) ∧
      (traverse pool capacity live items).faultSite?
        = some (item.offset, some item.instr.opcode) := by
  induction items generalizing live with
  | nil => cases h
  | cons item rest ih =>
    rw [traverse] at h ⊢
    have hexecutes := item.instr.executes_effect pool capacity live
    cases heffect : item.instr.effect pool capacity live with
    | fault e' left' =>
      rw [heffect] at h hexecutes
      cases h
      exact ⟨[], item, rest, live, rfl, rfl, hexecutes, hexecutes.site? _ _ _⟩
    | next live' =>
      -- the first instruction goes on, so the one that fails is among the others
      rw [heffect] at h
      obtain ⟨first, last, tail, middle, rfl, hfirst, hlast, hsite⟩ := ih h
      refine ⟨item :: first, last, tail, middle, rfl, ?_, hlast, faultSite?_andThen rfl hsite⟩
      rw [traverse, heffect]
      exact hfirst

/-- The site of the fault of instructions is that of one of them. -/
theorem exists_faultSite?_of_traverse {pool : Array Value} {capacity : Nat} {live left : List Value}
    {items : List Located} {e : RuntimeError}
    (h : (traverse pool capacity live items).effect = .fault e left) :
    ∃ item ∈ items,
      (traverse pool capacity live items).faultSite?
        = some (item.offset, some item.instr.opcode) := by
  obtain ⟨first, item, rest, middle, rfl, -, -, hsite⟩ := exists_executes_of_traverse h
  exact ⟨item, by simp, hsite⟩

end StackMachine
