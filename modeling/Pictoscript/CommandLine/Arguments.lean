import Pictoscript.Settings

/-! # Arguments

    invocation ::= option* command (option | flag | FILE)*
    option     ::= --config PATH | --config=PATH | --sink NAME | --sink=NAME

Options may stand before and behind the command, at most once on either side;
behind the command they count more. An argument that begins with `-` is never
taken for a value, unless it is `-` itself or stands behind `--`.
-/

namespace Pictoscript

namespace CommandLine

inductive Verb where
  | compile
  | parse
  | tokens
  | vocab
  | configSchema
deriving DecidableEq, Repr

namespace Verb

def ofName? : String → Option Verb
  | "compile" => some .compile
  | "parse" => some .parse
  | "tokens" => some .tokens
  | "vocab" => some .vocab
  | "config-schema" => some .configSchema
  | _ => none

def takesFile : Verb → Bool
  | .compile | .parse | .tokens => true
  | _ => false

def takesJson : Verb → Bool
  | .parse => true
  | _ => false

end Verb

structure Options where
  config : Option String
  sink : Option Sink
deriving DecidableEq, Repr

namespace Options

def none : Options := ⟨.none, .none⟩

/-- Options with those behind the command counting more. -/
def override (before behind : Options) : Options :=
  ⟨behind.config.or before.config, behind.sink.or before.sink⟩

end Options

structure Operands where
  options : Options
  file : Option String
  json : Bool
deriving DecidableEq, Repr

def Operands.none : Operands := ⟨.none, .none, false⟩

structure Invocation where
  verb : Verb
  operands : Operands
deriving DecidableEq, Repr

inductive Request where
  | run (invocation : Invocation)
  | version
  /-- Help on the program, or on one command. -/
  | help (topic : Option Verb)
deriving DecidableEq, Repr

/-- How an argument reads by its first characters. -/
inductive Argument where
  /-- A long flag with the text behind `=`, if any. -/
  | long (name : String) (value : Option String)
  /-- One or more letters behind a single `-`. -/
  | short (letters : List Char)
  /-- The mark behind which nothing is a flag. -/
  | escape
  | plain (text : String)
deriving DecidableEq, Repr

def Argument.ofText (text : String) : Argument :=
  match text.toList with
  | ['-', '-'] => .escape
  | '-' :: '-' :: rest =>
    match rest.dropWhile (· != '=') with
    | [] => .long (String.ofList rest) none
    | _ :: value =>
      .long (String.ofList (rest.takeWhile (· != '='))) (some (String.ofList value))
  | ['-'] => .plain text
  | '-' :: letters => .short letters
  | _ => .plain text

/-- The value of an option: the text behind `=`, or else the next argument. -/
def optionValue (attached : Option String) (rest : List String) :
    Option (String × List String) :=
  match attached, rest with
  | some value, rest => some (value, rest)
  | none, [] => none
  | none, next :: rest =>
    match Argument.ofText next with
    | .plain value => some (value, rest)
    | _ => none

/-- Takes `--config` or `--sink` and its value. A path is not empty, a sink is
one of the two, and neither is given twice. -/
def takeOption (options : Options) (name : String) (attached : Option String)
    (rest : List String) : Option (Options × List String) := do
  let (value, rest) ← optionValue attached rest
  if name = "config" then
    if options.config.isSome || value.isEmpty then none
    else return ({ options with config := some value }, rest)
  else if name = "sink" then
    let sink ← Sink.ofName? value
    if options.sink.isSome then none
    else return ({ options with sink := some sink }, rest)
  else none

/-- Takes a source file, if the command has one and none was given. -/
def takeFile (verb : Verb) (operands : Operands) (path : String) : Option Operands :=
  if verb.takesFile && operands.file.isNone && !path.isEmpty then
    some { operands with file := some path }
  else none

/-- Reads what stands behind `--`. -/
def readPlain (verb : Verb) (operands : Operands) : List String → Option Operands
  | [] => some operands
  | path :: rest => do readPlain verb (← takeFile verb operands path) rest

/-- Reads what stands behind a command; `none` is a mistake of usage. -/
def readOperands (verb : Verb) : (bound : Nat) → Operands → List String → Option Request
  | _, operands, [] => some (.run ⟨verb, operands⟩)
  | 0, _, _ :: _ => none
  | bound + 1, operands, arg :: rest =>
    match Argument.ofText arg with
    | .escape => (readPlain verb operands rest).map fun operands => .run ⟨verb, operands⟩
    | .plain path => do readOperands verb bound (← takeFile verb operands path) rest
    | .short ('h' :: _) => some (.help (some verb))
    | .short _ => none
    | .long "help" none => some (.help (some verb))
    | .long "json" none =>
      if verb.takesJson && !operands.json then
        readOperands verb bound { operands with json := true } rest
      else none
    | .long name attached => do
      let (options, rest) ← takeOption operands.options name attached rest
      readOperands verb bound { operands with options := options } rest

/-- Reads the topic of `help`: nothing, `help` itself or the name of a command. -/
def readTopic : List String → Option Request
  | [] | ["help"] => some (.help none)
  | [name] => (Verb.ofName? name).map fun verb => .help (some verb)
  | _ => none

def readRequest : (bound : Nat) → Options → List String → Option Request
  | _, _, [] => none
  | 0, _, _ :: _ => none
  | bound + 1, options, arg :: rest =>
    match Argument.ofText arg with
    | .escape => none
    | .plain "help" => readTopic rest
    | .plain name =>
      match Verb.ofName? name with
      | none => none
      | some verb =>
        (readOperands verb rest.length .none rest).map fun
          | .run ⟨verb, operands⟩ =>
            .run ⟨verb, { operands with options := options.override operands.options }⟩
          | request => request
    | .short ('h' :: _) => some (.help none)
    | .short ('V' :: _) => some .version
    | .short _ => none
    | .long "help" none => some (.help none)
    | .long "version" none => some .version
    | .long name attached => do
      let (options, rest) ← takeOption options name attached rest
      readRequest bound options rest

/-- Reads the arguments of the program; `none` is a mistake of usage. -/
def Request.ofArguments? (args : List String) : Option Request :=
  readRequest args.length .none args

end CommandLine

end Pictoscript
