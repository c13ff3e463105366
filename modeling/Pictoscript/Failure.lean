import Pictoscript.Compile
import Pictoscript.Json

/-! # Failures

What a run may report to its caller: a file that cannot be read, settings that
are no settings, or a source text that does not compile.
-/

namespace Pictoscript

inductive Failure where
  | io (message : String)
  | json (message : String)
  | compile (message : String)
deriving DecidableEq, Repr

namespace Failure

def display : Failure → String
  | .io message => s!"I/O error: {message}"
  | .json message => s!"JSON error: {message}"
  | .compile message => message

def code : Failure → String
  | .io _ => "Io"
  | .json _ => "Json"
  | .compile _ => "Compile"

def message : Failure → String
  | .io m | .json m | .compile m => m

def toJson (f : Failure) : Json :=
  .object [("code", .string f.code), ("detail", .object [("message", .string f.message)])]

/-- A compile error without its place in the source text. -/
def ofCompileError (e : CompileError) : Failure := .compile e.display

def missingFile : Failure := .io "No such file or directory (os error 2)"

def notText : Failure := .io "stream did not contain valid UTF-8"

def notSettings : Failure := .json "expected a settings document"

end Failure

def decodeText (bytes : ByteArray) : Except Failure String :=
  match String.fromUTF8? bytes with
  | some text => .ok text
  | none => .error .notText

end Pictoscript
