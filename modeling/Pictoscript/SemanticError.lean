import Pictoscript.Operator
import Pictoscript.Position
import Pictoscript.Scopes

/-! # Errors of meaning

A tree may be well formed and still have no script: a name is introduced twice
or called without being bound, or an expression has an impossible shape.
-/

namespace Pictoscript

inductive Misshape where
  | indexWithoutValue
  | missingOperator
  | negationWithRight
  | missingRight (op : Operator)
deriving DecidableEq, Repr

def Misshape.message : Misshape → String
  | .indexWithoutValue => "🔎 (index) must follow an array or value"
  | .missingOperator => "Missing operator for expression"
  | .negationWithRight => "🚫 (not) does not take a right-hand operand"
  | .missingRight op => s!"Missing right-hand operand for '{op.script}'"

inductive SemanticError where
  | duplicateDeclaration (name : String) (position : Position)
  | unresolvedReference (name : String) (position : Position)
  | malformedExpression (message : String) (position : Position)
  /-- A block was left that was never entered. -/
  | scopeUnderflow
deriving DecidableEq, Repr

namespace SemanticError

def kindName : SemanticError → String
  | .duplicateDeclaration .. => "DuplicateDeclaration"
  | .unresolvedReference .. => "UnresolvedReference"
  | .malformedExpression .. => "MalformedExpression"
  | .scopeUnderflow => "ScopeUnderflow"

def position? : SemanticError → Option Position
  | .duplicateDeclaration _ p | .unresolvedReference _ p | .malformedExpression _ p => some p
  | .scopeUnderflow => none

def display : SemanticError → String
  | .duplicateDeclaration name p => s!"[generate] line {p.cite}: '{name}' is already declared"
  | .unresolvedReference name p => s!"[generate] line {p.cite}: '{name}' is not defined"
  | .malformedExpression message p => s!"[generate] line {p.cite}: {message}"
  | .scopeUnderflow => "[generate] internal error: scope exit without matching enter"

def ofScope : ScopeError → Position → SemanticError
  | .alreadyDefined name, p => .duplicateDeclaration name p
  | .exitGlobal, _ => .scopeUnderflow

def ofMisshape (m : Misshape) (p : Position) : SemanticError :=
  .malformedExpression m.message p

end SemanticError

end Pictoscript
