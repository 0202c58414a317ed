import StackMachine.Node.Basic

/-! # Reductions of the grammar

Each rule of the grammar hands over its pieces, and a reduction makes a node of them. Chains arrive
as a head with an ordered tail and fold from the left, so operators of one precedence associate to
the left and suffixes apply in source order.

* **`Node.chain`** folds a head and its (operator, operand) pairs, **`Node.suffixes`** a target and
  its suffixes.
* **`Node.statements`** joins the statements of a block.
* A list that the source leaves out is an empty list. -/

namespace StackMachine

namespace Node

/-- Left-nested application of a chain of binary operators; an empty tail leaves the head as it
is. -/
def chain (head : Node) (tail : List (Operator × Node)) : Node :=
  tail.foldl (fun left link => .binary left link.1 link.2) head

/-- A target under its suffixes, the first one innermost; no suffix leaves the target as it is. -/
def suffixes (target : Node) (tail : List Suffix) : Node :=
  tail.foldl (fun inner suffix => .suffixed inner suffix) target

/-- The statements of a block: those on top, then those of each group of its body in order. -/
def statements (top : List Node) (body : List (List Node)) : List Node := top ++ body.flatten

/-- A reserved word from its text. -/
def ofKeyword (text : String) : Except TokenError Node := (Keyword.ofText text).map .keyword

/-- An array literal; its items may be left out. -/
def arrayLiteral (items : Option (List Node)) : Node := .array (items.getD [])

/-- A set literal; its items may be left out. -/
def setLiteral (items : Option (List Node)) : Node := .set (items.getD [])

/-- A map literal; its entries may be left out. -/
def mapLiteral (entries : Option (List (Node × Node))) : Node := .map (entries.getD [])

/-- A function literal; its parameters may be left out. -/
def functionLiteral (params : Option (List String)) (body : Node) : Node :=
  .function (params.getD []) body

/-- A right-nested chain: `count` times an operand and an operator in front of what follows. -/
def rightChain (operand : Node) (op : Operator) (last : Node) : Nat → Node
  | 0 => last
  | count + 1 => rightChain operand op (.binary operand op last) count

/-- A node inside `count` one-statement blocks. -/
def wrapped (node : Node) : Nat → Node
  | 0 => node
  | count + 1 => wrapped (.block [node]) count

end Node

/-- A call; its arguments may be left out. -/
def Suffix.callLiteral (args : Option (List Node)) : Suffix := .call (args.getD [])

end StackMachine
