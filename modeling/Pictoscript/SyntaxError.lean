import Pictoscript.Vocabulary

/-! # Errors of form

`Fault` lists the reasons for which a token is refused; `SyntaxError` is what
is reported: the kind of the fault, its wording and the position of the token.
-/

namespace Pictoscript

namespace SyntaxError

inductive Kind where
  | unexpectedToken
  | invalidExpression
  | missingToken
  | invalidStatement
deriving DecidableEq, Repr

def Kind.name : Kind → String
  | .unexpectedToken => "UnexpectedToken"
  | .invalidExpression => "InvalidExpression"
  | .missingToken => "MissingToken"
  | .invalidStatement => "InvalidStatement"

def Kind.label : Kind → String
  | .unexpectedToken => "unexpected token"
  | .invalidExpression => "invalid expression"
  | .missingToken => "missing token"
  | .invalidStatement => "invalid statement"

end SyntaxError

structure SyntaxError where
  kind : SyntaxError.Kind
  message : String
  position : Position
deriving DecidableEq, Repr

def SyntaxError.display (e : SyntaxError) : String :=
  s!"[parser] line {e.position.cite}: {e.message}"

inductive NameRole where
  | declared
  | assigned
  | function
  | parameter
  | called
  | reference
deriving DecidableEq, Repr

def NameRole.describe : NameRole → String
  | .declared => "identifier after 📝 (declare)"
  | .assigned => "identifier after 📥 (assign)"
  | .function => "function name"
  | .parameter => "parameter name"
  | .called => "function name after 🫑 (call-start)"
  | .reference => "identifier"

/-- Why a token is refused. The refused token is the last argument. -/
inductive Fault where
  | expected (wanted found : Token)
  | expectedName (role : NameRole) (found : Token)
  | expectedExpression (found : Token)
  | expectedOffset (found : Token)
  | cannotBeginStatement (found : Token)
  | numberTooLarge
deriving DecidableEq, Repr

namespace Fault

def kind : Fault → SyntaxError.Kind
  | .expected _ .endOfInput => .missingToken
  | .expected .. => .unexpectedToken
  | .expectedName _ .endOfInput => .missingToken
  | .expectedName .. => .unexpectedToken
  | .expectedExpression (.illegal _) => .unexpectedToken
  | .expectedExpression _ => .invalidExpression
  | .expectedOffset _ => .invalidExpression
  | .cannotBeginStatement _ => .invalidStatement
  | .numberTooLarge => .invalidExpression

def message : Fault → String
  | .expected wanted .endOfInput => s!"Expected {wanted.describe} before end of input"
  | .expected wanted found => s!"Expected {wanted.describe}, got {found.describe}"
  | .expectedName role .endOfInput => s!"Expected {role.describe}"
  | .expectedName role found => s!"Expected {role.describe}, got {found.describe}"
  | .expectedExpression .endOfInput => "Unexpected end of input, expected an expression"
  | .expectedExpression (.illegal unit) => s!"Unexpected {(Token.illegal unit).describe}"
  | .expectedExpression found => s!"Expected an expression, got {found.describe}"
  | .expectedOffset found => s!"Expected number for array index, got {found.describe}"
  | .cannotBeginStatement found => s!"A statement cannot begin with {found.describe}"
  | .numberTooLarge => "Number literal is too large"

def report (f : Fault) (p : Position) : SyntaxError := ⟨f.kind, f.message, p⟩

end Fault

end Pictoscript
