/-! # Operators

The operators of the pictograph language and the JavaScript operator each one
is written as. Every operator but `not` joins two operands.
-/

namespace Pictoscript

inductive Operator where
  | add | subtract | multiply | divide
  | equal | greater | less | greaterOrEqual | lessOrEqual
  | not | and | or
deriving DecidableEq, Repr

namespace Operator

/-- The JavaScript spelling. Equality is the strict one. -/
def script : Operator → String
  | .add => "+"
  | .subtract => "-"
  | .multiply => "*"
  | .divide => "/"
  | .equal => "==="
  | .greater => ">"
  | .less => "<"
  | .greaterOrEqual => ">="
  | .lessOrEqual => "<="
  | .not => "!"
  | .and => "&&"
  | .or => "||"

/-- The label used in tree outlines and in the JSON form of a tree. -/
def label : Operator → String
  | .add => "Add"
  | .subtract => "Sub"
  | .multiply => "Mul"
  | .divide => "Div"
  | .equal => "Equal"
  | .greater => "Greater"
  | .less => "Less"
  | .greaterOrEqual => "GreaterOrEqual"
  | .lessOrEqual => "LessOrEqual"
  | .not => "Not"
  | .and => "And"
  | .or => "Or"

end Operator

end Pictoscript
