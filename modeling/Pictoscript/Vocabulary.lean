import Pictoscript.Pictograph
import Pictoscript.Token

/-! # Vocabulary

The fixed table of pictographs with a meaning of their own. A unit is compared
with a word as a whole, and the emoji presentation selector is ignored on
both sides, so `⏹` and `⏹️` are one word.
-/

namespace Pictoscript

structure Word where
  symbol : String
  name : String
  token : Token
deriving DecidableEq, Repr

def vocabulary : List Word :=
  [⟨"0️⃣", "zero", .digit 0⟩,
   ⟨"1️⃣", "one", .digit 1⟩,
   ⟨"2️⃣", "two", .digit 2⟩,
   ⟨"3️⃣", "three", .digit 3⟩,
   ⟨"4️⃣", "four", .digit 4⟩,
   ⟨"5️⃣", "five", .digit 5⟩,
   ⟨"6️⃣", "six", .digit 6⟩,
   ⟨"7️⃣", "seven", .digit 7⟩,
   ⟨"8️⃣", "eight", .digit 8⟩,
   ⟨"9️⃣", "nine", .digit 9⟩,
   ⟨"📋", "quote", .quote⟩,
   ⟨"✅", "true", .boolean true⟩,
   ⟨"❌", "false", .boolean false⟩,
   ⟨"📦", "array-start", .arrayStart⟩,
   ⟨"🎁", "array-end", .arrayEnd⟩,
   ⟨"🌚", "comma", .comma⟩,
   ⟨"➕", "add", .operator .add⟩,
   ⟨"➖", "subtract", .operator .subtract⟩,
   ⟨"✖️", "multiply", .operator .multiply⟩,
   ⟨"➗", "divide", .operator .divide⟩,
   ⟨"🎯", "equal", .operator .equal⟩,
   ⟨"📈", "greater-or-equal", .operator .greaterOrEqual⟩,
   ⟨"📉", "less-or-equal", .operator .lessOrEqual⟩,
   ⟨"⬆️", "greater", .operator .greater⟩,
   ⟨"⬇️", "less", .operator .less⟩,
   ⟨"🚫", "not", .operator .not⟩,
   ⟨"🤝", "and", .operator .and⟩,
   ⟨"🙌", "or", .operator .or⟩,
   ⟨"🤔", "if", .branch⟩,
   ⟨"👉", "then", .arrow⟩,
   ⟨"💭", "else", .otherwise⟩,
   ⟨"⏹️", "stop", .stop⟩,
   ⟨"🔄", "loop", .loop⟩,
   ⟨"🚧", "barrier", .barrier⟩,
   ⟨"📝", "declare", .declare⟩,
   ⟨"📥", "assign", .assign⟩,
   ⟨"📎", "define", .define⟩,
   ⟨"🫑", "call-start", .callStart⟩,
   ⟨"🍴", "call-end", .callEnd⟩,
   ⟨"🔎", "index", .index⟩,
   ⟨"📢", "print", .print⟩]

/-- The word whose pictograph a unit spells, with or without selectors. -/
def Word.spelled? (unit : List Char) : Option Word :=
  vocabulary.find? fun w => Pictograph.bare w.symbol.toList == Pictograph.bare unit

example : (Word.spelled? ['⏹']).map Word.name = some "stop" := by decide
example : (Word.spelled? ['⏹', '\uFE0F']).map Word.name = some "stop" := by decide
example : Word.spelled? ['⏹', '⏹'] = none := by decide

/-- The word that stands for a token. -/
def Token.word? (t : Token) : Option Word :=
  vocabulary.find? fun w => w.token == t

def Word.caption (w : Word) : String := s!"{w.symbol} ({w.name})"

/-- How diagnostics name a token: by its word, if it has one. Of the tokens that
reach the last two cases only a digit above nine has none. -/
def Token.describe : Token → String
  | .text value => s!"string \"{value}\""
  | .symbol unit => s!"symbol {unit}"
  | .illegal unit => s!"illegal input '{unit}'"
  | .endOfInput => "end of input"
  | .digit value => ((Token.digit value).word?.map Word.caption).getD s!"Digit({value})"
  | t => (t.word?.map Word.caption).getD ""

end Pictoscript
