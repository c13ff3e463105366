import Pictoscript.Grammar.Progress

/-! # Programs

A program is read from all the tokens of a text. Its position is that of its
first token, or of the end of a text that has none.
-/

namespace Pictoscript

/-- The value or the error of an outcome that is reached. -/
def Outcome.settle {α : Type} : (o : Outcome α) → o ≠ .unfinished → Except SyntaxError α
  | .done value _, _ => .ok value
  | .failed error, _ => .error error
  | .unfinished, h => absurd rfl h

theorem Outcome.settle_eq_ok_iff {α : Type} {o : Outcome α} {h : o ≠ .unfinished} {a : α} :
    o.settle h = .ok a ↔ ∃ rest, o = .done a rest := by
  cases o with
  | done value rest => simp [settle]
  | failed error => simp [settle]
  | unfinished => exact absurd rfl h

theorem Outcome.settle_eq_error_iff {α : Type} {o : Outcome α} {h : o ≠ .unfinished}
    {e : SyntaxError} : o.settle h = .error e ↔ o = .failed e := by
  cases o with
  | done value rest => simp [settle]
  | failed error => simp [settle]
  | unfinished => exact absurd rfl h

namespace Program

def ofTokens (ts : Tokens) : Except SyntaxError Program :=
  match (Grammar.statements ts.stop ts.items).settle
      (Grammar.statements_ne_unfinished ts.stop ts.items) with
  | .ok statements => .ok ⟨statements, (Reading.head ts.stop ts.items).position⟩
  | .error e => .error e

def ofSource (source : String) : Except SyntaxError Program := ofTokens (tokenize source)

end Program

end Pictoscript
