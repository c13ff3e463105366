import Pictoscript.Operator
import Pictoscript.Position

/-! # Program trees

A program is a list of statements. Statements and expressions share one type,
`Node`, since an expression may stand as a statement; every node knows the
position it was read at.

An `Expression` is an operand, two operands joined by an operator, or a negated
operand, with or without a pair of barriers around it. The type has room for
shapes that no source text spells, such as an operator without its right
operand: a tree may also be built directly, and rendering reports such a shape.
-/

namespace Pictoscript

/-- A name where it is introduced or called. -/
structure Name where
  text : String
  position : Position
deriving DecidableEq, Repr

mutual
inductive Node where
  | number (value : Int) (position : Position)
  | text (value : String) (position : Position)
  | boolean (value : Bool) (position : Position)
  | variable (name : String) (position : Position)
  | array (elements : List Node) (position : Position)
  | expression (content : Expression) (position : Position)
  | declaration (name : Name) (value : Node) (position : Position)
  | assignment (target : Name) (value : Node) (position : Position)
  | branch (condition : Expression) (consequent : List Node)
      (alternative : Option (List Node)) (position : Position)
  | loop (condition : Expression) (body : List Node) (position : Position)
  | definition (name : Name) (parameters : List Name) (body : List Node)
      (position : Position)
  | call (name : Name) (arguments : List Node) (position : Position)
  /-- A subscript. It belongs to the value before it in the same list. -/
  | index (offset : Nat) (position : Position)
  | print (value : Node) (position : Position)
structure Expression where
  left : Node
  operator : Option Operator
  right : Option Node
  /-- Is the expression written between barriers? -/
  grouped : Bool
  /-- The position of the operator, or of the operand if there is none. -/
  position : Position
end

structure Program where
  statements : List Node
  position : Position

def Program.empty : Program := ⟨[], .start⟩

namespace Node

def position : Node → Position
  | .number _ p | .text _ p | .boolean _ p | .variable _ p | .array _ p
  | .expression _ p | .declaration _ _ p | .assignment _ _ p | .branch _ _ _ p
  | .loop _ _ p | .definition _ _ _ p | .call _ _ p | .index _ p | .print _ p => p

/-- A node that denotes a value, and so may be subscripted. -/
def isValue : Node → Bool
  | .number .. | .text .. | .boolean .. | .variable .. | .array ..
  | .expression .. | .call .. | .index .. => true
  | _ => false

/-- An operation that has no barriers around it. -/
def isBareOperation : Node → Bool
  | .expression content _ => content.operator.isSome && !content.grouped
  | _ => false

end Node

namespace Expression

def ofOperand (n : Node) : Expression :=
  { left := n, operator := none, right := none, grouped := false, position := n.position }

/-- A node as a condition: an expression node gives its own expression. -/
def ofNode : Node → Expression
  | .expression content _ => content
  | n => ofOperand n

/-- What a pair of barriers makes of the node between them. Barriers around an
expression that has some already wrap it once more. -/
def group : Node → Expression
  | .expression content p =>
    if content.grouped then { ofOperand (.expression content p) with grouped := true }
    else { content with grouped := true }
  | n => { ofOperand n with grouped := true }

end Expression

end Pictoscript
