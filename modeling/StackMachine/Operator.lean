/-! # Tokens of the grammar

The closed sets of operators and reserved words that the grammar delivers, with their spellings.

* **`Operator.ofSymbol`** and **`Keyword.ofText`** recognise a spelling; a text outside the set is a
  `TokenError`. -/

namespace StackMachine

/-- An **operator** of the grammar, unary or binary. -/
inductive Operator where
  | assign
  | plus
  | dash
  | star
  | slash
  | modulo
  | doubleStar
  | doublePipe
  | doubleAmp
  | equal
  | notEqual
  | greaterEqual
  | greater
  | lessEqual
  | less
  | amp
  | pipe
  | caret
  | doubleDot
  | tripleDot
  | bang
deriving DecidableEq

/-- A **reserved word** that denotes a literal. -/
inductive Keyword where
  | true
  | false
  | null
deriving DecidableEq

/-- A token text outside the closed sets. -/
inductive TokenError where
  /-- No reserved word is spelled so. -/
  | unknownKeyword (text : String)
  /-- No operator is spelled so. -/
  | unknownOperator (symbol : String)
deriving DecidableEq

/-- The wording of a token error. -/
def TokenError.message : TokenError → String
  | .unknownKeyword text => s!"unexpected keyword '{text}'"
  | .unknownOperator symbol => s!"no such operator '{symbol}'"

namespace Operator

/-- All operators. -/
def all : List Operator :=
  [.assign, .plus, .dash, .star, .slash, .modulo, .doubleStar, .doublePipe, .doubleAmp, .equal,
    .notEqual, .greaterEqual, .greater, .lessEqual, .less, .amp, .pipe, .caret, .doubleDot,
    .tripleDot, .bang]

/-- How an operator is written. -/
def symbol : Operator → String
  | .assign => "="
  | .plus => "+"
  | .dash => "-"
  | .star => "*"
  | .slash => "/"
  | .modulo => "%"
  | .doubleStar => "**"
  | .doublePipe => "||"
  | .doubleAmp => "&&"
  | .equal => "=="
  | .notEqual => "!="
  | .greaterEqual => ">="
  | .greater => ">"
  | .lessEqual => "<="
  | .less => "<"
  | .amp => "&"
  | .pipe => "|"
  | .caret => "^"
  | .doubleDot => ".."
  | .tripleDot => "..."
  | .bang => "!"

/-- The name of an operator in diagnostics. -/
def name : Operator → String
  | .assign => "ASSIGN"
  | .plus => "PLUS"
  | .dash => "DASH"
  | .star => "STAR"
  | .slash => "SLASH"
  | .modulo => "MODULO"
  | .doubleStar => "DBL_STAR"
  | .doublePipe => "DBL_PIPE"
  | .doubleAmp => "DBL_AMP"
  | .equal => "EQ"
  | .notEqual => "NEQ"
  | .greaterEqual => "GTEQ"
  | .greater => "GT"
  | .lessEqual => "LTEQ"
  | .less => "LT"
  | .amp => "AMP"
  | .pipe => "PIPE"
  | .caret => "CARET"
  | .doubleDot => "DBL_DOT"
  | .tripleDot => "TPL_DOT"
  | .bang => "BANG"

/-- The operator with a given spelling. -/
def ofSymbol (symbol : String) : Except TokenError Operator :=
  match all.find? fun op => op.symbol == symbol with
  | some op => .ok op
  | none => .error (.unknownOperator symbol)

/-- Every operator is recognised by its own symbol. -/
theorem ofSymbol_symbol (op : Operator) : ofSymbol op.symbol = .ok op := by
  cases op <;> rfl

end Operator

namespace Keyword

/-- The name of a reserved word in diagnostics. -/
def name : Keyword → String
  | .true => "TRUE"
  | .false => "FALSE"
  | .null => "NULL"

/-- The reserved word with a given spelling. -/
def ofText (text : String) : Except TokenError Keyword :=
  if text == "true" then .ok .true
  else if text == "false" then .ok .false
  else if text == "null" then .ok .null
  else .error (.unknownKeyword text)

end Keyword

end StackMachine
