import StackMachine.Numeral.Printer

/-! # Values

What the constant pool stores and the operand stack holds: numbers, texts, truth values and null.

* **`Value.kind`** is the tag that diagnostics name.
* **`Value.inspect`** is the text of a value: texts in double quotes with nothing escaped, the rest
  in the spelling of the language.
* **`Value.equals`** is the equality of the language, numeric on numbers. -/

namespace StackMachine

/-- A **value** of the language. -/
inductive Value where
  /-- A double-precision number. -/
  | number (x : Binary64)
  /-- A text. -/
  | text (s : String)
  /-- A truth value. -/
  | boolean (b : Bool)
  /-- The absent value. -/
  | null
deriving DecidableEq, Inhabited

/-- The **kind** of a value. -/
inductive Kind where
  | number
  | text
  | boolean
  | null
deriving DecidableEq

/-- The name of a kind in diagnostics. -/
def Kind.name : Kind → String
  | .number => "NUMBER"
  | .text => "STRING"
  | .boolean => "BOOLEAN"
  | .null => "NULL"

namespace Value

/-- The kind of a value. -/
def kind : Value → Kind
  | .number _ => .number
  | .text _ => .text
  | .boolean _ => .boolean
  | .null => .null

/-- The text that shows a value. -/
def inspect : Value → String
  | .number x => Numeral.print x
  | .text s => "\"" ++ s ++ "\""
  | .boolean true => "TRUE"
  | .boolean false => "FALSE"
  | .null => "NULL"

/-- **Equality of the language**: values of different kinds differ, numbers compare numerically. -/
def equals : Value → Value → Bool
  | .number x, .number y => x.equals y
  | .text s, .text t => s == t
  | .boolean a, .boolean b => a == b
  | .null, .null => true
  | _, _ => false

/-- Equal values are of one kind. -/
theorem kind_eq_of_equals {v w : Value} (h : v.equals w = true) : v.kind = w.kind := by
  cases v <;> cases w <;> simp_all [equals, kind]

end Value

end StackMachine
