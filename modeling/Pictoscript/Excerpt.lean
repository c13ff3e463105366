import Pictoscript.Position

/-! # Excerpts

An excerpt shows the line of a source text that a position lies on, with a
caret under the column. Lines end at newlines; a carriage return before the
newline belongs to the ending. A position past the last line shows no text.
-/

namespace Pictoscript

namespace Excerpt

/-- The parts of a text between newlines, at least one. -/
def splitLines : List Char → List (List Char)
  | [] => [[]]
  | c :: cs =>
    if c = '\n' then [] :: splitLines cs
    else
      match splitLines cs with
      | [] => [[c]]
      | part :: parts => (c :: part) :: parts

def dropReturn (part : List Char) : List Char :=
  if part.getLast? = some '\r' then part.dropLast else part

/-- The lines of a text without their endings. The part behind the last newline
is a line only if it is not empty, and keeps a carriage return at its end. -/
def lines (text : List Char) : List (List Char) :=
  let parts := splitLines text
  let last := parts.getLast?.getD []
  parts.dropLast.map dropReturn ++ (if last = [] then [] else [last])

example : lines ['a', '\r', '\n', 'b', '\n'] = [['a'], ['b']] := by decide
example : lines ['a', '\r'] = [['a', '\r']] := by decide
example : lines ['\n', '\n'] = [[], []] := by decide

/-- The line at a position and, under it, a caret in its column. -/
def pointAt (source : String) (p : Position) : String :=
  String.ofList (((lines source.toList)[p.line - 1]?).getD []) ++ "\n" ++
    String.ofList (List.replicate (p.column - 1) ' ') ++ "^"

end Excerpt

end Pictoscript
