import Pictoscript.Grammar.Expression

/-! # Statements

    statement ::= 📝 name 👉 expression
                | 📥 name 👉 expression
                | 🤔 expression 👉 block (💭 block)? ⏹️
                | 🔄 expression 👉 block ⏹️
                | 📎 name (🌚 name)* 👉 block ⏹️
                | 📢 expression
                | 🫑 name 👉 items 🍴
                | expression
    block     ::= statement*

A call that opens with `🫑` is complete as a statement: an operator behind it
does not take it as an operand. Nothing separates statements.
-/

namespace Pictoscript

namespace Grammar

open Reading

/-- Reads parameters, each behind a comma of its own. -/
def parametersWithin : (bound : Nat) → Reading (List Name)
  | 0 => unfinished
  | bound + 1 => do
    let t ← current
    if t.value = .comma then
      skip
      let parameter ← name .parameter
      let rest ← parametersWithin bound
      return parameter :: rest
    else
      return []

mutual
def statementWithin : (bound : Nat) → Reading Node
  | 0 => unfinished
  | bound + 1 => do
    let t ← current
    match t.value with
    | .declare =>
      skip
      let declared ← name .declared
      expect .arrow
      let value ← expression
      return .declaration declared value t.position
    | .assign =>
      skip
      let target ← name .assigned
      expect .arrow
      let value ← expression
      return .assignment target value t.position
    | .branch =>
      skip
      let condition ← expression
      expect .arrow
      let consequent ← blockWithin bound [.otherwise, .stop]
      let next ← current
      if next.value = .otherwise then
        skip
        let alternative ← blockWithin bound [.stop]
        expect .stop
        return .branch (.ofNode condition) consequent (some alternative) t.position
      else
        expect .stop
        return .branch (.ofNode condition) consequent none t.position
    | .loop =>
      skip
      let condition ← expression
      expect .arrow
      let body ← blockWithin bound [.stop]
      expect .stop
      return .loop (.ofNode condition) body t.position
    | .define =>
      skip
      let defined ← name .function
      let parameters ← parametersWithin bound
      expect .arrow
      let body ← blockWithin bound [.stop]
      expect .stop
      return .definition defined parameters body t.position
    | .print =>
      skip
      let value ← expression
      return .print value t.position
    | .callStart => operand
    | .arrow | .otherwise | .stop | .callEnd | .arrayEnd | .comma | .operator _ =>
      refuse (.cannotBeginStatement t.value) t.position
    | _ => expression
/-- Reads statements up to one of the tokens `closing`, or to the end. -/
def blockWithin : (bound : Nat) → (closing : List Token) → Reading (List Node)
  | 0, _ => unfinished
  | bound + 1, closing => do
    let t ← current
    if t.value = .endOfInput ∨ t.value ∈ closing then
      return []
    else
      let statement ← statementWithin bound
      let rest ← blockWithin bound closing
      return statement :: rest
end

/-- Each token allows at most two calls before it is consumed: block, statement. -/
def blockBound (ts : List (Located Token)) : Nat := 2 * ts.length + 2

def statements : Reading (List Node) := fun stop ts =>
  blockWithin (blockBound ts) [] stop ts

end Grammar

end Pictoscript
