/-! # Source positions

Lines and columns are counted from one. A column counts characters, so an
emoji built from several characters is several columns wide.
-/

namespace Pictoscript

structure Position where
  line : Nat
  column : Nat
deriving DecidableEq, Repr

namespace Position

def start : Position := ⟨1, 1⟩

/-- The position after a character: only a newline begins a new line. -/
def advance (p : Position) (c : Char) : Position :=
  if c = '\n' then ⟨p.line + 1, 1⟩ else ⟨p.line, p.column + 1⟩

@[simp] theorem advance_newline (p : Position) : p.advance '\n' = ⟨p.line + 1, 1⟩ := rfl

theorem advance_of_ne {c : Char} (h : c ≠ '\n') (p : Position) :
    p.advance c = ⟨p.line, p.column + 1⟩ := if_neg h

/-- The form `line:column`, in which every diagnostic cites a position. -/
def cite (p : Position) : String := s!"{p.line}:{p.column}"

end Position

/-- A value together with the position where its text begins. -/
structure Located (α : Type) where
  value : α
  position : Position
deriving DecidableEq, Repr

end Pictoscript
