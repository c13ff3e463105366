/-! # Quoted text

Text literals of the script: between double quotes, with the quote, the
backslash and the three common control characters escaped. All other
characters stand for themselves.
-/

namespace Pictoscript

namespace Script

def escape : Char → List Char
  | '"' => ['\\', '"']
  | '\\' => ['\\', '\\']
  | '\n' => ['\\', 'n']
  | '\r' => ['\\', 'r']
  | '\t' => ['\\', 't']
  | c => [c]

def quoted (value : String) : String :=
  "\"" ++ String.ofList (value.toList.flatMap escape) ++ "\""

example : quoted "a\"b" = "\"a\\\"b\"" := by decide

end Script

end Pictoscript
