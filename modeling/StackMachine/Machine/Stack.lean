import StackMachine.Value

/-! # The operand stack

A fixed number of slots and the count of those in use. Slots below the count hold a value, the
others are empty.

* **`OperandStack.push`** and **`OperandStack.pop`** fill and empty the slot at the count.
* **`OperandStack.values`** are the live values, bottom first; **`OperandStack.top?`** is the last
  of them. -/

namespace StackMachine

/-- An **operand stack**. -/
structure OperandStack where
  /-- The slots, bottom first. -/
  slots : Array (Option Value)
  /-- The index of the next free slot. -/
  height : Nat

namespace OperandStack

/-- The empty stack with a number of slots. -/
def empty (capacity : Nat) : OperandStack := ⟨Array.replicate capacity none, 0⟩

/-- The number of slots. -/
def capacity (s : OperandStack) : Nat := s.slots.size

/-- Whether a slot is free. -/
def hasRoom (s : OperandStack) : Bool := s.height < s.slots.size

/-- Puts a value into the next free slot. -/
def push (s : OperandStack) (v : Value) : OperandStack :=
  ⟨s.slots.setIfInBounds s.height (some v), s.height + 1⟩

/-- Takes the topmost value out of its slot; a stack without one stays as it is. An empty slot below
the count would give nothing either, with the count already lowered. -/
def pop (s : OperandStack) : Option Value × OperandStack :=
  match s.height with
  | 0 => (none, s)
  | below + 1 =>
    match s.slots[below]? with
    | some (some v) => (some v, ⟨s.slots.setIfInBounds below none, below⟩)
    | _ => (none, ⟨s.slots, below⟩)

/-- The live values, bottom first. -/
def values (s : OperandStack) : List Value := (s.slots.toList.take s.height).filterMap id

/-- The topmost value, if there is one. -/
def top? (s : OperandStack) : Option Value :=
  match s.height with
  | 0 => none
  | below + 1 => (s.slots[below]?).join

end OperandStack

end StackMachine
