import StackMachine.Binary64.Basic
import StackMachine.Operator

/-! # Syntax trees

The nodes that the grammar's reductions build. Lists keep source order; a program is a list of
nodes.

* **`Node`** is a syntax tree, **`Suffix`** what may follow a target expression.
* **`Node.kind`** is the tag that diagnostics name. -/

namespace StackMachine

mutual

/-- A **syntax tree**. -/
inductive Node where
  /-- A reserved word. -/
  | keyword (word : Keyword)
  /-- A reference to an identifier. -/
  | ident (name : String)
  /-- A number literal. -/
  | number (x : Binary64)
  /-- A text literal. -/
  | text (s : String)
  /-- A binary operator applied to two operands. -/
  | binary (left : Node) (op : Operator) (right : Node)
  /-- A unary operator applied to an operand. -/
  | unary (op : Operator) (operand : Node)
  /-- A return statement. -/
  | returns (result : Node)
  /-- A member access, call or index applied to a target. -/
  | suffixed (target : Node) (suffix : Suffix)
  /-- A sequence of statements. -/
  | block (nodes : List Node)
  /-- A parenthesised sequence of statements. -/
  | group (nodes : List Node)
  /-- A function literal. -/
  | function (params : List String) (body : Node)
  /-- An array literal. -/
  | array (items : List Node)
  /-- A set literal. -/
  | set (items : List Node)
  /-- A map literal: keys with their values. -/
  | map (entries : List (Node × Node))
  /-- A conditional: conditions with their consequences. -/
  | conditional (cases : List (Node × Node))
  /-- A switch: the statements under test, then conditions with their consequences. -/
  | switch (test : List Node) (cases : List (Node × Node))

/-- A **suffix** of a target expression. -/
inductive Suffix where
  /-- Access to a member by name. -/
  | member (name : String)
  /-- A call with arguments. -/
  | call (args : List Node)
  /-- An access by index. -/
  | index (key : Node)

end

instance : Inhabited Node := ⟨.block []⟩

instance : Inhabited Suffix := ⟨.call []⟩

/-- The **kind** of a node. -/
inductive NodeKind where
  | keyword
  | ident
  | number
  | text
  | binary
  | unary
  | returns
  | suffixed
  | block
  | group
  | function
  | array
  | set
  | map
  | conditional
  | switch
deriving DecidableEq

/-- The name of a node kind in diagnostics. -/
def NodeKind.name : NodeKind → String
  | .keyword => "KEYWORD"
  | .ident => "IDENT"
  | .number => "NUMBER"
  | .text => "STRING"
  | .binary => "INFIX"
  | .unary => "UNARY"
  | .returns => "RETURN"
  | .suffixed => "POSTFIX"
  | .block => "BLOCK"
  | .group => "GROUP"
  | .function => "FUNCTION"
  | .array => "ARRAY"
  | .set => "SET"
  | .map => "MAP"
  | .conditional => "IF"
  | .switch => "SWITCH"

/-- The kind of a node. -/
def Node.kind : Node → NodeKind
  | .keyword _ => .keyword
  | .ident _ => .ident
  | .number _ => .number
  | .text _ => .text
  | .binary _ _ _ => .binary
  | .unary _ _ => .unary
  | .returns _ => .returns
  | .suffixed _ _ => .suffixed
  | .block _ => .block
  | .group _ => .group
  | .function _ _ => .function
  | .array _ => .array
  | .set _ => .set
  | .map _ => .map
  | .conditional _ => .conditional
  | .switch _ _ => .switch

end StackMachine
