/-! # JSON values

Values with their members in order, and the two ways they are written: compact,
on one line without blanks, and pretty, with one element on a line and two
blanks of indentation for each level.
-/

namespace Pictoscript

inductive Json where
  | null
  | bool (value : Bool)
  | number (value : Int)
  | string (value : String)
  | array (elements : List Json)
  | object (members : List (String × Json))

namespace Json

def hexDigit (n : Nat) : Char :=
  if n < 10 then Char.ofNat (0x30 + n) else Char.ofNat (0x61 + (n - 10))

/-- The spelling of one character inside a string: the quote, the backslash and
the characters below U+0020 are escaped. -/
def escape (c : Char) : List Char :=
  if c = '"' then ['\\', '"']
  else if c = '\\' then ['\\', '\\']
  else if c = '\n' then ['\\', 'n']
  else if c = '\r' then ['\\', 'r']
  else if c = '\t' then ['\\', 't']
  else if c = '\x08' then ['\\', 'b']
  else if c = '\x0c' then ['\\', 'f']
  else if c.toNat < 0x20 then
    ['\\', 'u', '0', '0', hexDigit (c.toNat / 16), hexDigit (c.toNat % 16)]
  else [c]

def quote (s : String) : String := "\"" ++ String.ofList (s.toList.flatMap escape) ++ "\""

/-! ## Compact form -/

mutual
def compact : Json → String
  | .null => "null"
  | .bool value => if value then "true" else "false"
  | .number value => s!"{value}"
  | .string value => quote value
  | .array elements => "[" ++ ",".intercalate (compactElements elements) ++ "]"
  | .object members => "\x7b" ++ ",".intercalate (compactMembers members) ++ "\x7d"
def compactElements : List Json → List String
  | [] => []
  | e :: es => compact e :: compactElements es
def compactMembers : List (String × Json) → List String
  | [] => []
  | (key, value) :: ms => (quote key ++ ":" ++ compact value) :: compactMembers ms
end

/-! ## Pretty form -/

def newline (level : Nat) : String := "\n" ++ String.ofList (List.replicate (2 * level) ' ')

/-- Items between brackets, each on a line of its own. -/
def enclose (level : Nat) (opening closing : String) : List String → String
  | [] => opening ++ closing
  | items =>
    opening ++ newline (level + 1) ++ ("," ++ newline (level + 1)).intercalate items ++
      newline level ++ closing

mutual
def prettyAt (level : Nat) : Json → String
  | .null => "null"
  | .bool value => if value then "true" else "false"
  | .number value => s!"{value}"
  | .string value => quote value
  | .array elements => enclose level "[" "]" (prettyElements (level + 1) elements)
  | .object members => enclose level "\x7b" "\x7d" (prettyMembers (level + 1) members)
def prettyElements (level : Nat) : List Json → List String
  | [] => []
  | e :: es => prettyAt level e :: prettyElements level es
def prettyMembers (level : Nat) : List (String × Json) → List String
  | [] => []
  | (key, value) :: ms => (quote key ++ ": " ++ prettyAt level value) :: prettyMembers level ms
end

def pretty (v : Json) : String := prettyAt 0 v

end Json

end Pictoscript
