import StackMachine.Node.Basic

/-! # Structural equality of syntax trees

* **`Node.equals`** compares two trees node by node; number literals compare numerically, so a
  literal that is not a number differs from itself. The left operand of a binary node is compared
  last, which keeps the walk down a long operator chain a loop. -/

namespace StackMachine

mutual

/-- **Structural equality**, numeric on number literals. -/
def Node.equals : Node → Node → Bool
  | .keyword word, .keyword word' => word == word'
  | .ident name, .ident name' => name == name'
  | .number x, .number x' => x.equals x'
  | .text s, .text s' => s == s'
  | .binary left op right, .binary left' op' right' =>
    op == op' && right.equals right' && left.equals left'
  | .unary op operand, .unary op' operand' => op == op' && operand.equals operand'
  | .returns result, .returns result' => result.equals result'
  | .suffixed target suffix, .suffixed target' suffix' =>
    suffix.equals suffix' && target.equals target'
  | .block nodes, .block nodes' => Node.allEqual nodes nodes'
  | .group nodes, .group nodes' => Node.allEqual nodes nodes'
  | .function params body, .function params' body' => params == params' && body.equals body'
  | .array items, .array items' => Node.allEqual items items'
  | .set items, .set items' => Node.allEqual items items'
  | .map entries, .map entries' => Node.allPairsEqual entries entries'
  | .conditional cases, .conditional cases' => Node.allPairsEqual cases cases'
  | .switch test cases, .switch test' cases' =>
    Node.allEqual test test' && Node.allPairsEqual cases cases'
  | _, _ => false

/-- Structural equality of suffixes. -/
def Suffix.equals : Suffix → Suffix → Bool
  | .member name, .member name' => name == name'
  | .call args, .call args' => Node.allEqual args args'
  | .index key, .index key' => key.equals key'
  | _, _ => false

/-- Lists of one length whose members are equal place by place. -/
def Node.allEqual : List Node → List Node → Bool
  | [], [] => true
  | node :: rest, node' :: rest' => node.equals node' && Node.allEqual rest rest'
  | _, _ => false

/-- Lists of one length whose pairs are equal place by place. -/
def Node.allPairsEqual : List (Node × Node) → List (Node × Node) → Bool
  | [], [] => true
  | (first, second) :: rest, (first', second') :: rest' =>
    first.equals first' && second.equals second' && Node.allPairsEqual rest rest'
  | _, _ => false

end

end StackMachine
