import Pictoscript.Script.Quoted
import Pictoscript.Script.Rendering

/-! # Scripts

Renders a program tree as JavaScript. Nothing is laid out: statements are
joined by `;` and no blanks are written but those that the script needs.

An operand that is an operation without barriers gets parentheses, so that the
script evaluates a chain in the order it was written. Calling a name needs a
binding, and introducing one makes it; merely using a name needs none.
-/

namespace Pictoscript

inductive Sink where
  | plain
  | rich
deriving DecidableEq, Repr

def Sink.callee : Sink → String
  | .plain => "console.log("
  | .rich => "window.alert("

namespace Script

open Rendering

/-- A rendered member of a list, and whether a subscript may follow it. -/
structure Fragment where
  text : String
  isValue : Bool
deriving DecidableEq, Repr

/-- Writes a subscript behind the last of the fragments, which come last first. -/
def subscript (offset : Nat) (p : Position) :
    List Fragment → Except SemanticError (List Fragment)
  | last :: before =>
    if last.isValue then .ok (⟨last.text ++ s!"[{offset}]", true⟩ :: before)
    else .error (.ofMisshape .indexWithoutValue p)
  | [] => .error (.ofMisshape .indexWithoutValue p)

def texts (fragments : List Fragment) : List String :=
  fragments.reverse.map Fragment.text

/-- Fragments as the elements of an array or the arguments of a call. -/
def enumeration (fragments : List Fragment) : String := ",".intercalate (texts fragments)

def sequence (fragments : List Fragment) : String := ";".intercalate (texts fragments)

def parenthesized (text : String) : String := "(" ++ text ++ ")"

def braced (text : String) : String := "\x7b" ++ text ++ "\x7d"

/-- The text of an expression with the parentheses that its barriers ask for. -/
def enclose (grouped : Bool) (text : String) : String :=
  if grouped then parenthesized text else text

def asOperand (n : Node) (text : String) : String :=
  if n.isBareOperation then parenthesized text else text

mutual
def node (sink : Sink) : Node → Rendering String
  | .number value _ => return s!"{value}"
  | .text value _ => return quoted value
  | .boolean value _ => return s!"{value}"
  | .variable name _ => return name
  | .array elements _ => do
    let fragments ← members sink [] elements
    return "[" ++ enumeration fragments ++ "]"
  | .expression content _ => expression sink content
  | .declaration name value _ => do
    let text ← node sink value
    bindName name .variable text
    return "let " ++ name.text ++ "=" ++ text
  | .assignment target value _ => do
    let text ← node sink value
    return target.text ++ "=" ++ text
  | .branch condition consequent alternative _ => do
    let test ← expression sink condition
    let fragments ← inBlock (members sink [] consequent)
    let positive := "if" ++ parenthesized test ++ braced (sequence fragments)
    match alternative with
    | none => return positive
    | some body => do
      let fragments ← inBlock (members sink [] body)
      return positive ++ "else" ++ braced (sequence fragments)
  | .loop condition body _ => do
    let test ← expression sink condition
    let fragments ← inBlock (members sink [] body)
    return "while" ++ parenthesized test ++ braced (sequence fragments)
  | .definition name parameters body _ => do
    requireFree name
    bindName name .function name.text
    let fragments ← inBlock do
      bindParameters parameters
      members sink [] body
    return "function " ++ name.text ++
      parenthesized (",".intercalate (parameters.map Name.text)) ++
      braced (sequence fragments)
  | .call name arguments _ => do
    requireBound name
    let fragments ← members sink [] arguments
    return name.text ++ parenthesized (enumeration fragments)
  | .index _ p => fail (.ofMisshape .indexWithoutValue p)
  | .print value _ => do
    let text ← node sink value
    return sink.callee ++ text ++ ")"
def expression (sink : Sink) : Expression → Rendering String
  | ⟨left, none, none, grouped, _⟩ => do
    let text ← node sink left
    return enclose grouped text
  | ⟨_, none, some _, _, p⟩ => fail (.ofMisshape .missingOperator p)
  | ⟨left, some .not, none, grouped, _⟩ => do
    let text ← node sink left
    return enclose grouped ("!" ++ asOperand left text)
  | ⟨_, some .not, some _, _, p⟩ => fail (.ofMisshape .negationWithRight p)
  | ⟨_, some op, none, _, p⟩ => fail (.ofMisshape (.missingRight op) p)
  | ⟨left, some op, some right, grouped, _⟩ => do
    let first ← node sink left
    let second ← node sink right
    return enclose grouped (asOperand left first ++ op.script ++ asOperand right second)
/-- Renders the members of a list behind the fragments `done`. A subscript goes
to the fragment before it and is no fragment of its own. -/
def members (sink : Sink) (done : List Fragment) : List Node → Rendering (List Fragment)
  | [] => return done
  | .index offset p :: ns => do
    let done ← ofExcept (subscript offset p done)
    members sink done ns
  | n :: ns => do
    let text ← node sink n
    members sink (⟨text, n.isValue⟩ :: done) ns
end

end Script

/-- The script of a program, or the first error in the order of its text. -/
def Program.script (sink : Sink) (p : Program) : Except SemanticError String :=
  match Script.members sink [] p.statements .global with
  | (.ok fragments, _) => .ok (Script.sequence fragments)
  | (.error e, _) => .error e

end Pictoscript
