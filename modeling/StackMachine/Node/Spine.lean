import StackMachine.Node.Basic

/-! # The left spine of a syntax tree

From a binary node the spine goes to the left operand, from a suffixed one to the target, from a
nonempty block to its first node; anywhere else it ends.

* **`Node.spine`** counts the steps and gives the node at the end. -/

namespace StackMachine

namespace Node

/-- One step down the left spine. -/
def descend? : Node → Option Node
  | .binary left _ _ => some left
  | .suffixed target _ => some target
  | .block (first :: _) => some first
  | _ => none

/-- Follows the left spine to its end, counting on from `steps`. -/
def spineFrom (steps : Nat) : Node → Nat × Node
  | .binary left _ _ => left.spineFrom (steps + 1)
  | .suffixed target _ => target.spineFrom (steps + 1)
  | .block (first :: _) => first.spineFrom (steps + 1)
  | leaf => (steps, leaf)

/-- The length of the **left spine** and the node at its end. -/
def spine (node : Node) : Nat × Node := node.spineFrom 0

/-- The spine steps down as long as `descend?` does. -/
theorem spineFrom_of_descend? {node next : Node} (h : node.descend? = some next) (steps : Nat) :
    node.spineFrom steps = next.spineFrom (steps + 1) := by
  unfold descend? at h
  split at h <;> simp_all [spineFrom]

end Node

end StackMachine
