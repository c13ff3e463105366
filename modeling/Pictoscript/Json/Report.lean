import Pictoscript.Compile
import Pictoscript.Json

/-! # JSON forms

How positions, trees and errors are written as JSON. The members of an object
stand in a fixed order; a node holds its kind and its position.
-/

namespace Pictoscript

def Position.toJson (p : Position) : Json :=
  .object [("line", .number p.line), ("column", .number p.column)]

def Name.toJson (n : Name) : Json :=
  .object [("name", .string n.text), ("position", n.position.toJson)]

def Operator.toJson (op : Operator) : Json := .string op.label

namespace Node

def record (type : String) (members : List (String × Json)) (p : Position) : Json :=
  .object [("kind", .object (("type", .string type) :: members)), ("position", p.toJson)]

mutual
def toJson : Node → Json
  | .number value p => record "NumberLiteral" [("value", .number value)] p
  | .text value p => record "StringLiteral" [("value", .string value)] p
  | .boolean value p => record "BooleanLiteral" [("value", .bool value)] p
  | .variable name p => record "Identifier" [("name", .string name)] p
  | .array elements p => record "ArrayLiteral" [("elements", .array (listToJson elements))] p
  | .expression content p => record "Expression" (members content) p
  | .declaration name value p =>
    record "VariableDeclaration" [("name", name.toJson), ("value", value.toJson)] p
  | .assignment target value p =>
    record "Assignment" [("target", target.toJson), ("value", value.toJson)] p
  | .branch condition consequent alternative p =>
    record "IfStatement"
      [("condition", .object (members condition)),
       ("consequent", .array (listToJson consequent)),
       ("alternative",
        match alternative with
        | none => .null
        | some body => .array (listToJson body))] p
  | .loop condition body p =>
    record "LoopStatement"
      [("condition", .object (members condition)), ("body", .array (listToJson body))] p
  | .definition name parameters body p =>
    record "FunctionDefinition"
      [("name", name.toJson), ("parameters", .array (parameters.map Name.toJson)),
       ("body", .array (listToJson body))] p
  | .call name arguments p =>
    record "FunctionCall"
      [("name", name.toJson), ("arguments", .array (listToJson arguments))] p
  | .index offset p => record "IndexExpression" [("index", .number offset)] p
  | .print value p => record "IOOperation" [("value", value.toJson)] p
def members : Expression → List (String × Json)
  | ⟨left, operator, right, grouped, p⟩ =>
    [("left", left.toJson),
     ("operator", operator.elim .null Operator.toJson),
     ("right",
      match right with
      | none => .null
      | some operand => operand.toJson),
     ("parenthesized", .bool grouped),
     ("position", p.toJson)]
def listToJson : List Node → List Json
  | [] => []
  | n :: ns => n.toJson :: listToJson ns
end

end Node

def Expression.toJson (e : Expression) : Json := .object (Node.members e)

def Program.toJson (p : Program) : Json :=
  .object [("statements", .array (Node.listToJson p.statements)), ("position", p.position.toJson)]

def SyntaxError.toJson (e : SyntaxError) : Json :=
  .object [("kind", .string e.kind.name), ("message", .string e.message),
    ("position", e.position.toJson)]

def SemanticError.toJson (e : SemanticError) : Json :=
  let kind : String × Json := ("kind", .string e.kindName)
  match e with
  | .duplicateDeclaration name p | .unresolvedReference name p =>
    .object [kind, ("name", .string name), ("position", p.toJson)]
  | .malformedExpression message p =>
    .object [kind, ("message", .string message), ("position", p.toJson)]
  | .scopeUnderflow => .object [kind]

/-- What reading a text gave: the program, or the empty program and the error. -/
def Program.outcomeToJson : Except SyntaxError Program → Json
  | .ok p => .object [("valid", .bool true), ("program", p.toJson), ("error", .null)]
  | .error e =>
    .object [("valid", .bool false), ("program", Program.empty.toJson), ("error", e.toJson)]

end Pictoscript
