import Pictoscript.Excerpt
import Pictoscript.Grammar.Program
import Pictoscript.Script

/-! # Compilation

From source text to script: read the program, then render it. An error of form
is found before any error of meaning.
-/

namespace Pictoscript

inductive CompileError where
  | parse (error : SyntaxError)
  | generate (error : SemanticError)
deriving DecidableEq, Repr

namespace CompileError

def kindName : CompileError → String
  | .parse e => e.kind.name
  | .generate e => e.kindName

def position? : CompileError → Option Position
  | .parse e => some e.position
  | .generate e => e.position?

def display : CompileError → String
  | .parse e => e.display
  | .generate e => e.display

/-- The report with the place in the source text, where there is one. -/
def format (source : String) : CompileError → String
  | .parse e => s!"{e.display} ({e.kind.label})\n" ++ Excerpt.pointAt source e.position
  | .generate e =>
    match e.position? with
    | some p => e.display ++ "\n" ++ Excerpt.pointAt source p
    | none => e.display

end CompileError

def compile (sink : Sink) (source : String) : Except CompileError String :=
  match Program.ofSource source with
  | .error e => .error (.parse e)
  | .ok p =>
    match p.script sink with
    | .error e => .error (.generate e)
    | .ok script => .ok script

end Pictoscript
