/-! # Pictographic characters

Which characters make up an emoji, and which runs of characters may serve as a
piece of a name.

- A *pictographic* character is an emoji by itself.
- A *component* only modifies or joins: the zero-width joiner, the two
  presentation selectors, the combining keycap, skin tones and tag characters.
- An ASCII digit, `#` or `*` counts only in a run that has a combining keycap.

The skin tones lie inside the pictographic range, so a skin tone alone is a
symbol; a run of the other components is not one unless it has a keycap.
-/

namespace Pictoscript

namespace Pictograph

/-- The emoji presentation selector, U+FE0F. -/
def selector : Char := '\uFE0F'

/-- The combining enclosing keycap, U+20E3. -/
def keycap : Char := '\u20E3'

/-- Inclusive ranges of code points that are emoji by themselves. -/
def pictographicRanges : List (Nat × Nat) :=
  [(0xA9, 0xA9), (0xAE, 0xAE), (0x203C, 0x203C), (0x2049, 0x2049), (0x2122, 0x2122),
   (0x2139, 0x2139), (0x2194, 0x2199), (0x21A9, 0x21AA), (0x231A, 0x231B), (0x2328, 0x2328),
   (0x23CF, 0x23CF), (0x23E9, 0x23F3), (0x23F8, 0x23FA), (0x24C2, 0x24C2), (0x25AA, 0x25AB),
   (0x25B6, 0x25B6), (0x25C0, 0x25C0), (0x25FB, 0x25FE), (0x2600, 0x27BF), (0x2934, 0x2935),
   (0x2B05, 0x2B07), (0x2B1B, 0x2B1C), (0x2B50, 0x2B50), (0x2B55, 0x2B55), (0x3030, 0x3030),
   (0x303D, 0x303D), (0x3297, 0x3297), (0x3299, 0x3299), (0x1F000, 0x1FAFF),
   (0x1FC00, 0x1FFFD)]

/-- Inclusive ranges of code points that join or modify emoji. -/
def componentRanges : List (Nat × Nat) :=
  [(0x200D, 0x200D), (0x20E3, 0x20E3), (0xFE0E, 0xFE0F), (0x1F3FB, 0x1F3FF),
   (0xE0020, 0xE007F)]

def inRanges (ranges : List (Nat × Nat)) (c : Char) : Bool :=
  ranges.any fun r => r.1 ≤ c.toNat && c.toNat ≤ r.2

theorem le_toNat_of_inRanges {ranges : List (Nat × Nat)} {bound : Nat} {c : Char}
    (hranges : ranges.all (fun r => bound ≤ r.1) = true) (h : inRanges ranges c = true) :
    bound ≤ c.toNat := by
  obtain ⟨r, hr, hbounds⟩ := List.any_eq_true.mp h
  have hbound := List.all_eq_true.mp hranges r hr
  simp only [Bool.and_eq_true, decide_eq_true_eq] at hbounds hbound
  exact Nat.le_trans hbound hbounds.1

def isPictographic (c : Char) : Bool := inRanges pictographicRanges c

def isComponent (c : Char) : Bool := inRanges componentRanges c

/-- The characters that a keycap may enclose. -/
def isKeycapBase (c : Char) : Bool := c.isDigit || c == '#' || c == '*'

/-- May `unit` be (part of) a name? Each character is pictographic, a component
or, when the unit has a keycap anywhere, a keycap base; and there is a
pictographic character or a keycap. -/
def isSymbol (unit : List Char) : Bool :=
  let hasKeycap := unit.contains keycap
  unit.all (fun c => isPictographic c || isComponent c || (hasKeycap && isKeycapBase c)) &&
    (unit.any isPictographic || hasKeycap)

example : isSymbol ['🍉'] = true := by decide
example : isSymbol ['🏽'] = true := by decide
example : isSymbol ['1', selector, keycap] = true := by decide
example : isSymbol ['1'] = false := by decide
example : isSymbol [selector] = false := by decide
example : isSymbol [] = false := by decide

/-- The unit without its emoji presentation selectors. -/
def bare (unit : List Char) : List Char := unit.filter (· != selector)

@[simp] theorem bare_bare (unit : List Char) : bare (bare unit) = bare unit := by
  simp [bare]

end Pictograph

end Pictoscript
