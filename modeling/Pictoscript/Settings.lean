import Pictoscript.Failure
import Pictoscript.Json.Scan

/-! # Settings

Settings are fixed for one compilation. They are read from a JSON text: an
object with the member `print_sink`, where other members are passed over, or an
array with the values of the members in order. What is missing has its default.

A sink is written as its name or as an object whose only member has that name
and the value `null`.
-/

namespace Pictoscript

structure Settings where
  sink : Sink
deriving DecidableEq, Repr

namespace Sink

def name : Sink → String
  | .plain => "plain"
  | .rich => "rich"

def ofName? (name : String) : Option Sink :=
  if name = "plain" then some .plain else if name = "rich" then some .rich else none

@[simp] theorem ofName?_name (s : Sink) : ofName? s.name = some s := by
  cases s <;> rfl

end Sink

namespace Settings

def default : Settings := ⟨.plain⟩

def toJson (s : Settings) : Json := .object [("print_sink", .string s.sink.name)]

open Json

def sink? (cs : List Char) : Option (Sink × List Char) :=
  match skipMark? '\x7b' cs with
  | none => do
    let (name, rest) ← string? cs
    return (← Sink.ofName? name, rest)
  | some inner => do
    let (name, rest) ← string? inner
    let sink ← Sink.ofName? name
    let rest ← skipMark? ':' rest
    let rest ← skipWord? "null" (skipSpace rest)
    return (sink, ← skipMark? '\x7d' rest)

/-- Reads the members of an object and its closing brace. The sink may be given
only once. -/
def membersWithin : (bound : Nat) → (found : Option Sink) → List Char →
    Option (Settings × List Char)
  | 0, _, _ => none
  | bound + 1, found, cs => do
    let (key, rest) ← string? cs
    let value ← skipMark? ':' rest
    let (found, rest) ←
      if key = "print_sink" then
        if found.isSome then none
        else (sink? value).map fun (sink, rest) => (some sink, rest)
      else (skipValue? value).map fun rest => (found, rest)
    match skipMark? ',' rest with
    | some more => membersWithin bound found more
    | none => (skipMark? '\x7d' rest).map fun rest => (⟨found.getD .plain⟩, rest)

def ofObject? (cs : List Char) : Option (Settings × List Char) := do
  let inner ← skipMark? '\x7b' cs
  match skipMark? '\x7d' inner with
  | some rest => return (.default, rest)
  | none => membersWithin inner.length none inner

def ofArray? (cs : List Char) : Option (Settings × List Char) := do
  let inner ← skipMark? '[' cs
  match skipMark? ']' inner with
  | some rest => return (.default, rest)
  | none =>
    let (sink, rest) ← sink? inner
    return (⟨sink⟩, ← skipMark? ']' rest)

/-- Reads settings from a text with nothing but blanks around them. -/
def ofText? (text : String) : Option Settings := do
  let (settings, rest) ← (ofObject? text.toList).or (ofArray? text.toList)
  if (skipSpace rest).isEmpty then return settings else none

def ofBytes (bytes : ByteArray) : Except Failure Settings := do
  let text ← decodeText bytes
  match ofText? text with
  | some settings => return settings
  | none => throw .notSettings

/-! ## Schema -/

/-- The schema of one value of an enumeration. -/
def schemaVariant (description value : String) : Json :=
  .object [("description", .string description), ("type", .string "string"),
    ("enum", .array [.string value])]

def schema : Json :=
  .object
    [("$schema", .string "http://json-schema.org/draft-07/schema#"),
     ("title", .string "CompileSettings"),
     ("description", .string "Options fixed for the duration of one generation run."),
     ("type", .string "object"),
     ("properties", .object
       [("print_sink", .object
         [("default", .string "plain"),
          ("allOf", .array [.object [("$ref", .string "#/definitions/PrintSink")]])])]),
     ("definitions", .object
       [("PrintSink", .object
         [("description", .string "Where `📢` output goes in the generated script."),
          ("oneOf", .array
            [schemaVariant "`console.log(...)`, available in every host." "plain",
             schemaVariant "`window.alert(...)`, for browser hosts." "rich"])])])]

end Settings

end Pictoscript
