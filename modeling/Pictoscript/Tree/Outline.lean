import Pictoscript.Tree

/-! # Outlines

An outline shows a program tree with one node on a line and two blanks of
indentation for each level. Positions are left out.
-/

namespace Pictoscript

namespace Outline

def line (depth : Nat) (content : String) : String :=
  String.ofList (List.replicate (2 * depth) ' ') ++ content ++ "\n"

/-- The heading of an expression: its operator and whether it has barriers. -/
def heading (operator : Option Operator) (grouped : Bool) : String :=
  "Expression" ++ (operator.elim "" fun op => " " ++ op.label) ++
    (if grouped then " (grouped)" else "")

def parameterList (parameters : List Name) : String :=
  ", ".intercalate (parameters.map Name.text)

mutual
def node (depth : Nat) : Node → String
  | .number value _ => line depth s!"NumberLiteral {value}"
  | .text value _ => line depth s!"StringLiteral \"{value}\""
  | .boolean value _ => line depth s!"BooleanLiteral {value}"
  | .variable name _ => line depth s!"Identifier {name}"
  | .array elements _ => line depth "ArrayLiteral" ++ nodes (depth + 1) elements
  | .expression content _ => expression depth content
  | .declaration name value _ =>
    line depth s!"VariableDeclaration {name.text}" ++ node (depth + 1) value
  | .assignment target value _ =>
    line depth s!"Assignment {target.text}" ++ node (depth + 1) value
  | .branch condition consequent alternative _ =>
    line depth "IfStatement" ++ expression (depth + 1) condition ++
      line (depth + 1) "Consequent" ++ nodes (depth + 2) consequent ++
      match alternative with
      | none => ""
      | some body => line (depth + 1) "Alternative" ++ nodes (depth + 2) body
  | .loop condition body _ =>
    line depth "LoopStatement" ++ expression (depth + 1) condition ++
      line (depth + 1) "Body" ++ nodes (depth + 2) body
  | .definition name parameters body _ =>
    line depth s!"FunctionDefinition {name.text}({parameterList parameters})" ++
      line (depth + 1) "Body" ++ nodes (depth + 2) body
  | .call name arguments _ =>
    line depth s!"FunctionCall {name.text}" ++ nodes (depth + 1) arguments
  | .index offset _ => line depth s!"IndexExpression [{offset}]"
  | .print value _ => line depth "IOOperation print" ++ node (depth + 1) value
def expression (depth : Nat) : Expression → String
  | ⟨left, operator, right, grouped, _⟩ =>
    line depth (heading operator grouped) ++ node (depth + 1) left ++
      match right with
      | none => ""
      | some operand => node (depth + 1) operand
def nodes (depth : Nat) : List Node → String
  | [] => ""
  | n :: ns => node depth n ++ nodes depth ns
end

end Outline

def Program.outline (p : Program) : String :=
  Outline.line 0 "Program" ++ Outline.nodes 1 p.statements

end Pictoscript
