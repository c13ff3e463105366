import Pictoscript.Proofs.Grammar.Transcribed
import Pictoscript.Proofs.Relocation

/-! # Reading relocated tokens

No reader of the grammar looks at a position: positions are only carried along, from
the tokens into the tree or into the error. So reading the tokens of a text at other
positions has the same outcome at these other positions, whether it is a tree or an
error.
-/

namespace Pictoscript

variable (f : Position → Position)

def SyntaxError.relocate (e : SyntaxError) : SyntaxError := ⟨e.kind, e.message, f e.position⟩

def Program.relocate (p : Program) : Program := ⟨relocateNodes f p.statements, f p.position⟩

def Tokens.relocate (ts : Tokens) : Tokens := ⟨ts.items.map (Located.relocate f), f ts.stop⟩

theorem Tokens.toList_relocate (ts : Tokens) :
    (ts.relocate f).toList = ts.toList.map (Located.relocate f) := by
  rw [Tokens.toList, Tokens.toList, List.map_append]
  rfl

namespace Transcription

variable {f}

theorem tokens_moving (ts : Tokens) : (moving f).tokens ts = ts.relocate f := by
  rw [tokens, located_moving]
  rfl

theorem fault_moving (fault : Fault) : (moving f).fault fault = fault := by
  cases fault with
  | numberTooLarge => rfl
  | _ => rw [Transcription.fault, token_moving]

end Transcription

variable {f}

/-- Relocated tokens are read as the relocated program, or refused with the relocated
error. -/
theorem Program.ofTokens_relocate (ts : Tokens) :
    ofTokens (ts.relocate f) =
      ((ofTokens ts).map (Program.relocate f)).mapError (SyntaxError.relocate f) := by
  have hmoved := ofTokens_transcribed (.moving f) ts
  rw [Transcription.tokens_moving] at hmoved
  rcases hmoved with ⟨p, hread, hread'⟩ | ⟨fault, q, hread, hread'⟩
  · rw [hread, hread', Transcription.program, Transcription.nodes_moving]
    rfl
  · rw [hread, hread', Transcription.fault_moving]
    rfl

end Pictoscript
