import Pictoscript.Proofs.JavaScript.Lexer

/-! # Reading scripts

How the tokens of a script are read by the rules of JavaScript. A text is read
from the inside out. Brackets come first: what stands between a pair of them
becomes one piece, an operand or a block. Between brackets, commas and semicolons
there is then a row of pieces without inner structure, and only here operators
have ranks. The negation `!` binds tightest, followed by `* /`, `+ -`,
`< > <= >=`, `===`, `&&` and `||`, and operators of one rank associate to the
left. Parentheses leave no trace in the tree.

The reader takes one token at a time and keeps the brackets that are still open
on a stack, so it needs no bound and no look ahead.
-/

namespace Pictoscript

namespace Js

/-! ## Trees -/

inductive Expr where
  | number (value : Nat)
  | text (value : String)
  | boolean (value : Bool)
  | name (name : String)
  | array (elements : List Expr)
  | call (callee : Expr) (arguments : List Expr)
  | subscript (receiver offset : Expr)
  | negation (operand : Expr)
  | operation (op : Operator) (left right : Expr)

inductive Statement where
  | declare (name : String) (value : Expr)
  | assign (name : String) (value : Expr)
  | branch (condition : Expr) (consequent : List Statement)
      (alternative : Option (List Statement))
  | loop (condition : Expr) (body : List Statement)
  | function (name : String) (parameters : List String) (body : List Statement)
  | evaluate (value : Expr)

/-! ## Rows of pieces -/

inductive Keyword where
  | declare
  | branch
  | otherwise
  | loop
  | function
deriving DecidableEq

inductive Piece where
  | operand (e : Expr)
  | operator (op : Operator)
  | assign
  | keyword (k : Keyword)
  | block (body : List Statement)

def Piece.ofWord (w : String) : Piece :=
  if w = "let" then .keyword .declare
  else if w = "if" then .keyword .branch
  else if w = "else" then .keyword .otherwise
  else if w = "while" then .keyword .loop
  else if w = "function" then .keyword .function
  else if w = "true" then .operand (.boolean true)
  else if w = "false" then .operand (.boolean false)
  else if w.toList.all Char.isDigit then .operand (.number (Nat.ofDigitChars 10 w.toList 0))
  else .operand (.name w)

/-- The operands of a row, each with the negations in front of it, and the
operators between them. -/
def operands? : List Piece → Option (Expr × List (Operator × Expr))
  | [.operand e] => some (e, [])
  | .operand e :: .operator op :: row =>
    if op = .not then none
    else (operands? row).map fun (f, rest) => (e, (op, f) :: rest)
  | .operator .not :: row => (operands? row).map fun (e, rest) => (.negation e, rest)
  | _ => none

/-- Operators of lower rank bind tighter. -/
def rank : Operator → Nat
  | .not => 0
  | .multiply | .divide => 1
  | .add | .subtract => 2
  | .less | .greater | .lessOrEqual | .greaterOrEqual => 3
  | .equal => 4
  | .and => 5
  | .or => 6

/-- Joins the operands around the operators of one rank, from left to right. -/
def joinRank (r : Nat) : Expr → List (Operator × Expr) → Expr × List (Operator × Expr)
  | e, [] => (e, [])
  | e, (op, f) :: rest =>
    if rank op = r then joinRank r (.operation op e f) rest
    else
      match joinRank r f rest with
      | (g, rest) => (e, (op, g) :: rest)

/-- Reads a row as one expression, rank after rank. -/
def resolve? (row : List Piece) : Option Expr :=
  match operands? row with
  | none => none
  | some chain =>
    match [1, 2, 3, 4, 5, 6].foldl (fun (e, rest) r => joinRank r e rest) chain with
    | (e, []) => some e
    | _ => none

example (a b c : Expr) : resolve? [.operand a, .operator .add, .operand b, .operator .multiply,
    .operand c] = some (.operation .add a (.operation .multiply b c)) := rfl

example (a b c : Expr) : resolve? [.operator .not, .operand a, .operator .subtract, .operand b,
    .operator .add, .operand c] =
      some (.operation .add (.operation .subtract (.negation a) b) c) := rfl

def names? : List Expr → Option (List String)
  | [] => some []
  | .name x :: es => (names? es).map (x :: ·)
  | _ => none

def statement? : List Piece → Option Statement
  | .keyword .declare :: .operand (.name x) :: .assign :: row => (resolve? row).map (.declare x)
  | .operand (.name x) :: .assign :: row => (resolve? row).map (.assign x)
  | [.keyword .branch, .operand condition, .block body] => some (.branch condition body none)
  | [.keyword .branch, .operand condition, .block body, .keyword .otherwise, .block other] =>
    some (.branch condition body (some other))
  | [.keyword .loop, .operand condition, .block body] => some (.loop condition body)
  | [.keyword .function, .operand (.call (.name x) parameters), .block body] =>
    (names? parameters).map fun names => .function x names body
  | row => (resolve? row).map .evaluate

theorem statement?_declare (x : String) (row : List Piece) :
    statement? (.keyword .declare :: .operand (.name x) :: .assign :: row) =
      (resolve? row).map (.declare x) := rfl

theorem statement?_assign (x : String) (row : List Piece) :
    statement? (.operand (.name x) :: .assign :: row) = (resolve? row).map (.assign x) := rfl

theorem statement?_function (x : String) (parameters : List Expr) (body : List Statement) :
    statement? [.keyword .function, .operand (.call (.name x) parameters), .block body] =
      (names? parameters).map fun names => .function x names body := rfl

/-! ## Brackets -/

/-- What an open bracket will be when it is closed. -/
inductive Opening where
  | group
  | array
  | call (callee : Expr)
  | subscript (receiver : Expr)
  | block

/-- An open bracket with what was read behind it. Everything comes last first. -/
structure Frame where
  opening : Opening
  items : List Expr
  statements : List Statement
  row : List Piece

structure State where
  top : Frame
  below : List Frame

namespace State

def push (p : Piece) (k : State) : State :=
  { k with top := { k.top with row := p :: k.top.row } }

def enter (o : Opening) (k : State) : State := ⟨⟨o, [], [], []⟩, k.top :: k.below⟩

/-- Leaves the bracket on top, which became the piece `p`. -/
def leave (p : Piece) (k : State) : Option State :=
  match k.below with
  | [] => none
  | f :: fs => some (push p ⟨f, fs⟩)

end State

def Frame.items? (f : Frame) : Option (List Expr) :=
  match f.row with
  | [] => some f.items.reverse
  | row => (resolve? row.reverse).map fun e => (e :: f.items).reverse

def Frame.statements? (f : Frame) : Option (List Statement) :=
  match f.row with
  | [] => some f.statements.reverse
  | row => (statement? row.reverse).map fun s => (s :: f.statements).reverse

/-- A bracket behind an operand belongs to it. -/
def openBracket (b : Bracket) (k : State) : State :=
  match b, k.top.row with
  | .paren, .operand e :: row => { k with top := { k.top with row := row } }.enter (.call e)
  | .paren, _ => k.enter .group
  | .square, .operand e :: row => { k with top := { k.top with row := row } }.enter (.subscript e)
  | .square, _ => k.enter .array
  | .brace, _ => k.enter .block

def closeBracket (b : Bracket) (k : State) : Option State :=
  match b, k.top.opening with
  | .paren, .group => (resolve? k.top.row.reverse).bind fun e => k.leave (.operand e)
  | .paren, .call callee => k.top.items?.bind fun es => k.leave (.operand (.call callee es))
  | .square, .array => k.top.items?.bind fun es => k.leave (.operand (.array es))
  | .square, .subscript receiver =>
    (resolve? k.top.row.reverse).bind fun e => k.leave (.operand (.subscript receiver e))
  | .brace, .block => k.top.statements?.bind fun body => k.leave (.block body)
  | _, _ => none

def step (k : State) : Token → Option State
  | .word w => some (k.push (.ofWord w))
  | .text value => some (k.push (.operand (.text value)))
  | .operator op => some (k.push (.operator op))
  | .assign => some (k.push .assign)
  | .opening b => some (openBracket b k)
  | .closing b => closeBracket b k
  | .comma =>
    match k.top.opening with
    | .array | .call _ =>
      (resolve? k.top.row.reverse).map fun e =>
        { k with top := { k.top with items := e :: k.top.items, row := [] } }
    | _ => none
  | .semicolon =>
    match k.top.opening with
    | .block =>
      (statement? k.top.row.reverse).map fun s =>
        { k with top := { k.top with statements := s :: k.top.statements, row := [] } }
    | _ => none

def run (k : State) (ts : List Token) : Option State := ts.foldlM step k

/-- The whole script is a block. -/
def State.start : State := ⟨⟨.block, [], [], []⟩, []⟩

def read (script : String) : Option (List Statement) := do
  let ts ← lex script.toList
  let k ← run .start ts
  match k.below with
  | [] => k.top.statements?
  | _ => none

end Js

end Pictoscript
