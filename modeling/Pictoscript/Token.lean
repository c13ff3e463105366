import Pictoscript.Operator
import Pictoscript.Position

/-! # Tokens

The alphabet that the grammar is written over. A text is cut into units at
blanks, and one unit is one token, except that a quoted text is one token from
its opening to its closing quote.
-/

namespace Pictoscript

inductive Token where
  /-- One decimal digit. -/
  | digit (value : Nat)
  /-- A complete quoted text. -/
  | text (value : String)
  | boolean (value : Bool)
  | quote
  | arrayStart
  | arrayEnd
  | comma
  | callStart
  | callEnd
  | operator (op : Operator)
  | branch
  | arrow
  | otherwise
  | stop
  | loop
  | barrier
  | declare
  | assign
  | define
  | index
  | print
  /-- A unit that may be part of a name. -/
  | symbol (unit : String)
  /-- Anything else. -/
  | illegal (unit : String)
  | endOfInput
deriving DecidableEq, Repr

/-- Does a token announce a right operand after `🚫`? A call written with a
leading `🫑` is not announced by it. -/
def Token.startsOperand : Token → Bool
  | .digit _ | .text _ | .boolean _ | .arrayStart | .symbol _ | .barrier => true
  | _ => false

end Pictoscript
