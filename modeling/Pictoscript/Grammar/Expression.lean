import Pictoscript.Reading

/-! # Expressions

    expression ::= 🔎 digits | operand (operator operand | 🚫)*
    operand    ::= 🚧 expression 🚧 | 🫑 name 👉 items 🍴 | name 🫑 items 🍴
                 | digits | text | ✅ | ❌ | 📦 items 🎁 | name
    items      ::= (expression | 🌚)*

Operators have no ranks: a chain is read from left to right, each operator
taking all that was read before it as its left operand. The functions recurse
within a bound that every call lowers by one.

A barrier both opens and closes a group. Only behind `🚫` can it be taken for
either, and there it closes the group if one is open around the expression,
also from within an array or a list of arguments.
-/

namespace Pictoscript

namespace Grammar

open Reading

def index : Reading Node := do
  let mark ← current
  skip
  let t ← current
  match t.value with
  | .digit _ =>
    let offset ← number offsetLimit
    return .index offset mark.position
  | found => refuse (.expectedOffset found) t.position

/-- Does `🚫` stand without a right operand when `next` comes behind it? -/
def negatesLeft (inGroup : Bool) (next : Token) : Bool :=
  !next.startsOperand || (next == .barrier && inGroup)

mutual
def operandWithin : (bound : Nat) → (inGroup : Bool) → Reading Node
  | 0, _ => unfinished
  | bound + 1, inGroup => do
    let t ← current
    match t.value with
    | .barrier =>
      skip
      let inner ← expressionWithin bound true
      expect .barrier
      return .expression (.group inner) t.position
    | .callStart =>
      skip
      let callee ← name .called
      expect .arrow
      let arguments ← itemsWithin bound inGroup .callEnd
      expect .callEnd
      return .call callee arguments t.position
    | .digit _ =>
      let value ← number numberLimit
      return .number value t.position
    | .text value =>
      skip
      return .text value t.position
    | .boolean value =>
      skip
      return .boolean value t.position
    | .arrayStart =>
      skip
      let elements ← itemsWithin bound inGroup .arrayEnd
      expect .arrayEnd
      return .array elements t.position
    | .symbol _ =>
      let callee ← name .reference
      let next ← current
      if next.value = .callStart then
        skip
        let arguments ← itemsWithin bound inGroup .callEnd
        expect .callEnd
        return .call callee arguments callee.position
      else
        return .variable callee.text callee.position
    | found => refuse (.expectedExpression found) t.position
/-- Reads the operators and operands that follow `left`. -/
def chainWithin : (bound : Nat) → (inGroup : Bool) → (left : Node) → Reading Node
  | 0, _, _ => unfinished
  | bound + 1, inGroup, left => do
    let t ← current
    match t.value with
    | .operator op =>
      let next ← following
      skip
      if op = .not ∧ negatesLeft inGroup next then
        chainWithin bound inGroup
          (.expression ⟨left, some op, none, false, t.position⟩ t.position)
      else
        let right ← operandWithin bound inGroup
        chainWithin bound inGroup
          (.expression ⟨left, some op, some right, false, t.position⟩ t.position)
    | _ => return left
/-- Reads an expression or a subscript. -/
def expressionWithin : (bound : Nat) → (inGroup : Bool) → Reading Node
  | 0, _ => unfinished
  | bound + 1, inGroup => do
    let t ← current
    if t.value = .index then
      index
    else
      let left ← operandWithin bound inGroup
      chainWithin bound inGroup left
/-- Reads expressions up to the token `close`, passing over commas anywhere. -/
def itemsWithin : (bound : Nat) → (inGroup : Bool) → (close : Token) → Reading (List Node)
  | 0, _, _ => unfinished
  | bound + 1, inGroup, close => do
    let t ← current
    if t.value = .endOfInput ∨ t.value = close then
      return []
    else if t.value = .comma then
      skip
      itemsWithin bound inGroup close
    else
      let item ← expressionWithin bound inGroup
      let rest ← itemsWithin bound inGroup close
      return item :: rest
end

/-- Each token allows at most three calls before it is consumed: list of items,
expression, operand. -/
def expressionBound (ts : List (Located Token)) : Nat := 3 * ts.length + 3

def operand : Reading Node := fun stop ts =>
  operandWithin (expressionBound ts) false stop ts

def expression : Reading Node := fun stop ts =>
  expressionWithin (expressionBound ts) false stop ts

end Grammar

end Pictoscript
