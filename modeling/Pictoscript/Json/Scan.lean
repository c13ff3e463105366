/-! # Scanning JSON text

Pieces of the JSON grammar over a list of characters. A scanner gives the
characters behind the piece it found, or `none` where the text has no such
piece. Blanks before a value are passed over, and nothing else is: no comments,
no comma before a closing bracket, no number with leading zeros.

A string may spell code units that make up no text: `"\ud800"` is a string of
the grammar, but denotes no characters. `skipValue` takes it for a value,
`string?` refuses it.
-/

namespace Pictoscript

namespace Json

def isSpace (c : Char) : Bool := c == ' ' || c == '\n' || c == '\t' || c == '\r'

def skipSpace (cs : List Char) : List Char := cs.dropWhile isSpace

/-! ## Strings -/

def hexValue? (c : Char) : Option Nat :=
  if '0' ≤ c ∧ c ≤ '9' then some (c.toNat - '0'.toNat)
  else if 'a' ≤ c ∧ c ≤ 'f' then some (c.toNat - 'a'.toNat + 10)
  else if 'A' ≤ c ∧ c ≤ 'F' then some (c.toNat - 'A'.toNat + 10)
  else none

/-- The code unit that four hexadecimal digits spell. -/
def codeUnit? (a b c d : Char) : Option Nat := do
  return 4096 * (← hexValue? a) + 256 * (← hexValue? b) + 16 * (← hexValue? c) + (← hexValue? d)

def shortEscape? : Char → Option Char
  | '"' => some '"'
  | '\\' => some '\\'
  | '/' => some '/'
  | 'b' => some '\x08'
  | 'f' => some '\x0c'
  | 'n' => some '\n'
  | 'r' => some '\r'
  | 't' => some '\t'
  | _ => none

/-- A character of a string, or a code unit written by its number. -/
inductive Piece where
  | char (c : Char)
  | unit (n : Nat)
deriving DecidableEq, Repr

/-- The pieces of a string up to its closing quote, and what is behind it. -/
def stringBody? : List Char → Option (List Piece × List Char)
  | [] => none
  | '"' :: cs => some ([], cs)
  | '\\' :: 'u' :: a :: b :: c :: d :: cs => do
    let n ← codeUnit? a b c d
    let (pieces, rest) ← stringBody? cs
    return (.unit n :: pieces, rest)
  | '\\' :: e :: cs => do
    let c ← shortEscape? e
    let (pieces, rest) ← stringBody? cs
    return (.char c :: pieces, rest)
  | c :: cs =>
    if c.toNat < 0x20 || c == '\\' then none
    else do
      let (pieces, rest) ← stringBody? cs
      return (.char c :: pieces, rest)

/-- Joins code units to characters. A unit from D800 to DBFF needs one from DC00
to DFFF behind it, and such a unit one of those before it. -/
def decode? : List Piece → Option (List Char)
  | [] => some []
  | .char c :: ps => (decode? ps).map (c :: ·)
  | .unit high :: .unit low :: ps =>
    if 0xD800 ≤ high ∧ high < 0xDC00 then
      if 0xDC00 ≤ low ∧ low < 0xE000 then
        (decode? ps).map
          (Char.ofNat (0x10000 + 1024 * (high - 0xD800) + (low - 0xDC00)) :: ·)
      else none
    else if 0xDC00 ≤ high ∧ high < 0xE000 then none
    else (decode? (.unit low :: ps)).map (Char.ofNat high :: ·)
  | .unit n :: ps =>
    if 0xD800 ≤ n ∧ n < 0xE000 then none else (decode? ps).map (Char.ofNat n :: ·)

def string? (cs : List Char) : Option (String × List Char) :=
  match skipSpace cs with
  | '"' :: cs => do
    let (pieces, rest) ← stringBody? cs
    let content ← decode? pieces
    return (String.ofList content, rest)
  | _ => none

/-! ## Numbers -/

def skipDigits? : List Char → Option (List Char)
  | c :: cs => if c.isDigit then some (cs.dropWhile Char.isDigit) else none
  | [] => none

/-- Passes over the digits before the point: a zero, or digits that begin with
another one. -/
def skipInteger? : List Char → Option (List Char)
  | '0' :: cs => if cs.head?.any Char.isDigit then none else some cs
  | cs => skipDigits? cs

def skipFraction? : List Char → Option (List Char)
  | '.' :: cs => skipDigits? cs
  | cs => some cs

def skipExponent? : List Char → Option (List Char)
  | e :: cs =>
    if e == 'e' || e == 'E' then
      match cs with
      | '+' :: ds => skipDigits? ds
      | '-' :: ds => skipDigits? ds
      | ds => skipDigits? ds
    else some (e :: cs)
  | [] => some []

def skipNumber? (cs : List Char) : Option (List Char) := do
  let unsigned := match cs with
    | '-' :: ds => ds
    | ds => ds
  skipExponent? (← skipFraction? (← skipInteger? unsigned))

/-! ## Values -/

def skipWord? (word : String) (cs : List Char) : Option (List Char) :=
  if word.toList.isPrefixOf cs then some (cs.drop word.length) else none

/-- Passes over one character behind blanks. -/
def skipMark? (mark : Char) (cs : List Char) : Option (List Char) :=
  match skipSpace cs with
  | c :: rest => if c = mark then some rest else none
  | [] => none

mutual
def skipValueWithin : (bound : Nat) → List Char → Option (List Char)
  | 0, _ => none
  | bound + 1, cs =>
    match skipSpace cs with
    | '"' :: rest => (stringBody? rest).map Prod.snd
    | '[' :: rest => (skipMark? ']' rest).or (skipElementsWithin bound rest)
    | '\x7b' :: rest => (skipMark? '\x7d' rest).or (skipMembersWithin bound rest)
    | rest =>
      (skipWord? "null" rest).or <| (skipWord? "true" rest).or <|
        (skipWord? "false" rest).or (skipNumber? rest)
def skipElementsWithin : (bound : Nat) → List Char → Option (List Char)
  | 0, _ => none
  | bound + 1, cs => do
    let rest ← skipValueWithin bound cs
    match skipMark? ',' rest with
    | some more => skipElementsWithin bound more
    | none => skipMark? ']' rest
def skipMembersWithin : (bound : Nat) → List Char → Option (List Char)
  | 0, _ => none
  | bound + 1, cs => do
    let key ← skipMark? '"' cs
    let (_, rest) ← stringBody? key
    let value ← skipMark? ':' rest
    let rest ← skipValueWithin bound value
    match skipMark? ',' rest with
    | some more => skipMembersWithin bound more
    | none => skipMark? '\x7d' rest
end

/-- Passes over any value. Each character allows at most two calls. -/
def skipValue? (cs : List Char) : Option (List Char) :=
  skipValueWithin (2 * cs.length + 2) cs

end Json

end Pictoscript
