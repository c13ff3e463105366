import Pictoscript.Proofs.Grammar.Transcribed
import Pictoscript.Proofs.Lexing.Reference

/-! # Scanning transcribed runs

A transcription may be applied to the runs of a text before they are scanned, or to
the tokens afterwards. The two agree if every run by itself means the same before and
after: then the same runs open and close quotations, and what a quotation takes is
respelled run by run.
-/

namespace Pictoscript

theorem Cursor.isQuote_iff_ofRun {run : List Char} :
    isQuote run = true ↔ Token.ofRun run = .quote := by
  rw [isQuote, Token.ofRun]
  cases Word.spelled? run with
  | none =>
      simp only [Option.any_none]
      split <;> simp
  | some w => simp

namespace Transcription

variable (τ : Transcription)

def chars (run : List Char) : List Char := (τ.spell (String.ofList run)).toList

def run (r : Located (List Char)) : Located (List Char) := ⟨τ.chars r.value, τ.place r.position⟩

/-- A run means the same in the new spelling, and the quote is spelled as before. -/
structure KeepsRuns : Prop where
  ofRun : ∀ run, Token.ofRun (τ.chars run) = τ.token (Token.ofRun run)
  quote : τ.spell "📋" = "📋"

variable {τ}

theorem spell_append (a b : String) : τ.spell (a ++ b) = τ.spell a ++ τ.spell b := by
  have hjoin := τ.spell_join [a, b]
  simpa only [List.map_cons, List.map_nil, String.join_cons, String.join_nil,
    String.append_empty] using hjoin

theorem flatMap_run (rs : List (Located (List Char))) :
    String.ofList ((rs.map τ.run).flatMap Located.value) =
      τ.spell (String.ofList (rs.flatMap Located.value)) := by
  induction rs with
  | nil => exact (τ.spell_join []).symm
  | cons r rs ih =>
      rw [List.map_cons, List.flatMap_cons, List.flatMap_cons, String.ofList_append,
        String.ofList_append, ih, spell_append, run, chars, String.ofList_toList]

theorem KeepsRuns.isQuote_run (h : τ.KeepsRuns) (r : Located (List Char)) :
    isQuote (τ.run r).value = isQuote r.value := by
  rw [Bool.eq_iff_iff, Cursor.isQuote_iff_ofRun, Cursor.isQuote_iff_ofRun, run, h.ofRun,
    token_eq_iff rfl]

/-- Scanning transcribed runs gives the transcribed tokens. -/
theorem KeepsRuns.scanRuns (h : τ.KeepsRuns) (rs : List (Located (List Char))) :
    scanRuns (rs.map τ.run) = (scanRuns rs).map τ.located := by
  have hcontent : isContent ∘ τ.run = isContent := by
    funext r
    rw [Function.comp_apply, isContent, isContent, h.isQuote_run]
  fun_induction Pictoscript.scanRuns rs with
  | case1 => exact scanRuns_nil
  | case2 run rest hquote content hopen =>
      have hopen' : (rest.map τ.run).dropWhile isContent = [] := by
        rw [List.dropWhile_map, hcontent, hopen]
        rfl
      rw [List.map_cons, scanRuns_of_open ((h.isQuote_run run).trans hquote) hopen',
        List.takeWhile_map, hcontent, flatMap_run, ← h.quote, ← spell_append, h.quote]
      rfl
  | case3 run rest hquote content close behind hclose ih =>
      have hclose' : (rest.map τ.run).dropWhile isContent = τ.run close :: behind.map τ.run := by
        rw [List.dropWhile_map, hcontent, hclose]
        rfl
      rw [List.map_cons, scanRuns_of_closed ((h.isQuote_run run).trans hquote) hclose',
        List.takeWhile_map, hcontent, flatMap_run, ih]
      rfl
  | case4 run rest hquote ih =>
      have hplain : isQuote (τ.run run).value = false :=
        (h.isQuote_run run).trans (Bool.eq_false_of_not_eq_true hquote)
      rw [List.map_cons, scanRuns_of_not_isQuote hplain, ih, Transcription.run, h.ofRun]
      rfl

end Transcription

end Pictoscript
