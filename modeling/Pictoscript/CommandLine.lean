import Pictoscript.CommandLine.Arguments
import Pictoscript.Json.Report
import Pictoscript.Tree.Outline

/-! # Command line

What the program does for each request. Files and standard input are read
through `Reads`, so that a run is a function of what they hold.
-/

namespace Pictoscript

namespace CommandLine

/-- The two ways a run reads bytes. -/
structure Reads (m : Type → Type) where
  file : String → m (Except Failure ByteArray)
  input : m ByteArray

/-- What a run leaves behind. -/
structure Output where
  code : UInt32
  stdout : String
  stderr : String
deriving DecidableEq, Repr

namespace Output

def success (text : String) : Output := ⟨0, text, ""⟩

def ofFailure (f : Failure) : Output := ⟨1, "", s!"Error: {f.display}\n"⟩

def ofResult : Except Failure String → Output
  | .ok text => success text
  | .error f => ofFailure f

def misuse : Output :=
  ⟨2, "", "error: the arguments are not understood\n\nFor more information, try '--help'.\n"⟩

end Output

/-! ## The commands on a source text -/

def compileText (settings : Settings) (source : String) : Except Failure String :=
  match compile settings.sink source with
  | .ok script => .ok (script ++ "\n")
  | .error e => .error (.compile (e.format source))

def outlineText (source : String) : Except Failure String :=
  match Program.ofSource source with
  | .ok program => .ok program.outline
  | .error e => .error (.compile ((CompileError.parse e).format source))

def outcomeText (source : String) : String :=
  (Program.outcomeToJson (Program.ofSource source)).pretty ++ "\n"

def padLeft (width : Nat) (text : String) : String :=
  String.ofList (List.replicate (width - text.length) ' ') ++ text

def padRight (width : Nat) (text : String) : String :=
  text ++ String.ofList (List.replicate (width - text.length) ' ')

/-- A token with its position in two columns of width four. -/
def tokenLine (t : Located Token) : String :=
  padLeft 4 s!"{t.position.line}" ++ ":" ++ padRight 4 s!"{t.position.column}" ++ " " ++
    t.value.describe ++ "\n"

def tokensText (source : String) : String :=
  String.join ((tokenize source).toList.map tokenLine)

def vocabularyText : String :=
  String.join (vocabulary.map fun w => w.symbol ++ "\t" ++ w.name ++ "\n")

def schemaText : String := Settings.schema.pretty ++ "\n"

/-! ## Help -/

def usage : Verb → String
  | .compile => "compile [OPTIONS] [FILE]"
  | .parse => "parse [OPTIONS] [FILE]"
  | .tokens => "tokens [OPTIONS] [FILE]"
  | .vocab => "vocab [OPTIONS]"
  | .configSchema => "config-schema [OPTIONS]"

def summary : Verb → String
  | .compile => "Compile a source file (or stdin) to JavaScript"
  | .parse => "Parse and print the syntax tree"
  | .tokens => "Print the token stream with positions"
  | .vocab => "List the pictogram vocabulary"
  | .configSchema => "Print the JSON schema of the settings file"

def versionText : String := "emojiscript-cli 0.1.0\n"

def helpText : Option Verb → String
  | none =>
    "Compile emoji script to JavaScript\n\nUsage: emojiscript-cli [OPTIONS] <COMMAND>\n\n" ++
      "Commands:\n" ++
      String.join ([("compile", Verb.compile), ("parse", .parse), ("tokens", .tokens),
        ("vocab", .vocab), ("config-schema", .configSchema)].map
          fun (name, verb) => "  " ++ padRight 13 name ++ "  " ++ summary verb ++ "\n") ++
      "  help           Print this message or the help of the given subcommand(s)\n" ++
      "\nOptions:\n      --config <CONFIG>  Settings file (JSON)\n" ++
      "      --sink <SINK>      Print sink override [possible values: plain, rich]\n" ++
      "  -h, --help             Print help\n  -V, --version          Print version\n"
  | some verb =>
    summary verb ++ "\n\nUsage: emojiscript-cli " ++ usage verb ++ "\n"

/-! ## Runs -/

section

variable {m : Type → Type} [Monad m]

def readSource (reads : Reads m) : Option String → m (Except Failure String)
  | some path => do
    let bytes ← reads.file path
    return bytes.bind decodeText
  | none => do
    let bytes ← reads.input
    return decodeText bytes

/-- The settings: those of the file, with the sink replaced if one is given. -/
def readSettings (reads : Reads m) (options : Options) : m (Except Failure Settings) := do
  let settings ←
    match options.config with
    | some path => do
      let bytes ← reads.file path
      pure (bytes.bind Settings.ofBytes)
    | none => pure (.ok .default)
  return settings.map fun s => ⟨options.sink.getD s.sink⟩

/-- Performs a command. A source that cannot be read is reported before the
settings are read, and only compiling reads them. -/
def perform (reads : Reads m) (invocation : Invocation) : m Output := do
  let operands := invocation.operands
  match invocation.verb with
  | .compile =>
    match ← readSource reads operands.file with
    | .error f => return .ofFailure f
    | .ok source =>
      let settings ← readSettings reads operands.options
      return .ofResult (settings.bind fun s => compileText s source)
  | .parse =>
    let source ← readSource reads operands.file
    return .ofResult
      (if operands.json then source.map outcomeText else source.bind outlineText)
  | .tokens =>
    let source ← readSource reads operands.file
    return .ofResult (source.map tokensText)
  | .vocab => return .success vocabularyText
  | .configSchema => return .success schemaText

def answer (reads : Reads m) (args : List String) : m Output :=
  match Request.ofArguments? args with
  | none => pure .misuse
  | some .version => pure (.success versionText)
  | some (.help topic) => pure (.success (helpText topic))
  | some (.run invocation) => perform reads invocation

end

end CommandLine

end Pictoscript
