import Pictoscript.Proofs.Grammar.Enclosed
import Pictoscript.Proofs.Layout

/-! # Presentation selectors

The emoji presentation selector says how a pictograph is drawn, and a text may have it
or leave it out. Deleting all selectors from a text is a transcription: names and quoted
texts lose their selectors and the tokens behind them move up, but every run keeps its
meaning. So the text reads as before, as long as no run was made of selectors alone and
goes away with them.
-/

namespace Pictoscript

/-! ## Runs without selectors -/

namespace Pictograph

theorem bare_append (as bs : List Char) : bare (as ++ bs) = bare as ++ bare bs :=
  List.filter_append as bs

@[simp] theorem bare_cons_selector (cs : List Char) : bare (selector :: cs) = bare cs := rfl

theorem bare_cons {c : Char} (hc : c ≠ selector) (cs : List Char) :
    bare (c :: cs) = c :: bare cs :=
  List.filter_cons_of_pos (by simpa using hc)

theorem bare_eq_nil_iff {unit : List Char} : bare unit = [] ↔ ∀ c ∈ unit, c = selector := by
  simp [bare, List.filter_eq_nil_iff]

/-- The selector is a component and neither a pictograph nor a keycap, so it never
decides whether a unit is a symbol. -/
theorem isSymbol_bare (unit : List Char) : isSymbol (bare unit) = isSymbol unit := by
  have hkeycap : (bare unit).contains keycap = unit.contains keycap := by
    have hne : keycap ≠ selector := by decide
    rw [Bool.eq_iff_iff]
    simp [bare, hne]
  rw [isSymbol, isSymbol, hkeycap, bare, List.all_filter, List.any_filter]
  congr 2
  · funext c
    by_cases hc : c = selector
    · subst hc
      simp [show isComponent selector = true by decide]
    · simp [hc]
  · congr 1
    funext c
    by_cases hc : c = selector
    · subst hc
      decide
    · simp [hc]

end Pictograph

open Pictograph

theorem Word.spelled?_bare (unit : List Char) : Word.spelled? (bare unit) = Word.spelled? unit := by
  rw [Word.spelled?, Word.spelled?, bare_bare]

theorem Word.isFixed_of_spelled? {unit : List Char} {w : Word} (h : Word.spelled? unit = some w) :
    w.token.isFixed = true := by
  have hall : ∀ w ∈ vocabulary, w.token.isFixed = true := by decide
  exact hall w (List.mem_of_find?_eq_some h)

def unselected (source : String) : String := String.ofList (bare source.toList)

theorem unselected_join (parts : List String) :
    unselected (String.join parts) = String.join (parts.map unselected) := by
  induction parts with
  | nil => rfl
  | cons part parts ih =>
      rw [List.map_cons, String.join_cons, String.join_cons, ← ih, unselected,
        String.toList_append, bare_append, String.ofList_append]
      rfl

namespace Transcription

def unselecting : Transcription := ⟨id, unselected, unselected_join⟩

theorem chars_unselecting (run : List Char) : unselecting.chars run = bare run := by
  show (unselected (String.ofList run)).toList = bare run
  rw [unselected, String.toList_ofList, String.toList_ofList]

theorem keepsRuns_unselecting : unselecting.KeepsRuns := by
  refine ⟨fun run => ?_, by decide⟩
  have hspell : unselecting.spell (String.ofList run) = String.ofList (bare run) := by
    rw [← chars_unselecting, chars, String.ofList_toList]
  rw [chars_unselecting, Token.ofRun, Token.ofRun, Word.spelled?_bare, isSymbol_bare]
  cases hword : Word.spelled? run with
  | some w => exact ((token_eq_iff (Word.isFixed_of_spelled? hword)).mpr rfl).symm
  | none =>
      dsimp only
      split
      · rw [token, hspell]
      · rw [token, hspell]

end Transcription

/-! ## Texts without selectors -/

/-- Blanks are no selectors, so they still separate the same runs. -/
theorem splitOnP_bare (text : List Char) :
    (bare text).splitOnP isBlank = (text.splitOnP isBlank).map bare := by
  induction text with
  | nil => rfl
  | cons c text ih =>
      rw [List.splitOnP_cons_eq_if_modifyHead]
      by_cases hc : c = selector
      · subst hc
        rw [bare_cons_selector, if_neg (by decide), ih]
        cases text.splitOnP isBlank <;> rfl
      · rw [bare_cons hc, List.splitOnP_cons_eq_if_modifyHead, ih]
        split
        · rfl
        · cases text.splitOnP isBlank with
          | nil => rfl
          | cons part parts => simp [bare_cons hc]

theorem units_bare {text : List Char} (h : ∀ u ∈ units text, ∃ c ∈ u, c ≠ selector) :
    units (bare text) = (units text).map bare := by
  rw [units, splitOnP_bare, List.filter_map, units]
  congr 1
  refine List.filter_congr fun part hpart => ?_
  -- A part that is empty now was empty before, since otherwise it was a run.
  cases part with
  | nil => rfl
  | cons c cs =>
      have hrun : c :: cs ∈ units text := List.mem_filter.mpr ⟨hpart, rfl⟩
      have hbare : bare (c :: cs) ≠ [] := by
        obtain ⟨d, hd, hne⟩ := h (c :: cs) hrun
        exact fun heq => hne (bare_eq_nil_iff.mp heq d hd)
      simpa using hbare

theorem map_value_tokenize_unselected {source : String}
    (h : ∀ u ∈ units source.toList, ∃ c ∈ u, c ≠ selector) :
    (tokenize (unselected source)).toList.map Located.value =
      (tokenize source).toList.map (Transcription.unselecting.token ·.value) := by
  have hruns : (locatedRuns (unselected source).toList).map Located.value =
      ((locatedRuns source.toList).map Transcription.unselecting.run).map Located.value := by
    have hvalue : Located.value ∘ Transcription.unselecting.run = bare ∘ Located.value := by
      funext r
      rw [Function.comp_apply, Transcription.run, Transcription.chars_unselecting,
        Function.comp_apply]
    rw [map_value_locatedRuns, unselected, String.toList_ofList, units_bare h, List.map_map, hvalue,
      ← List.map_map, map_value_locatedRuns]
  have hitems := map_value_scanRuns hruns
  rw [Transcription.keepsRuns_unselecting.scanRuns, ← items_tokenize, ← items_tokenize,
    List.map_map] at hitems
  rw [Tokens.toList, Tokens.toList, List.map_append, List.map_append, hitems]
  rfl

theorem Program.erase_relocate (f : Position → Position) (p : Program) :
    (p.relocate f).erase = p.erase := by
  rw [Program.erase, Program.relocate, eraseNodes_relocate, Program.erase]

/-- Without its selectors a text has the same tokens at other places. -/
theorem exists_relocate_unselected {source : String}
    (h : ∀ u ∈ units source.toList, ∃ c ∈ u, c ≠ selector) :
    ∃ f, tokenize (unselected source) =
      (Transcription.unselecting.tokens (tokenize source)).relocate f := by
  refine exists_relocate_tokens ?_ ?_
  · rw [map_value_tokenize_unselected h, Transcription.toList_tokens, List.map_map]
    rfl
  · rw [Transcription.toList_tokens, List.pairwise_map]
    exact pairwise_toList_tokenize source

/-- An error of form is reported at a token, or at the end. -/
theorem exists_token_of_ofSource {source : String} {e : SyntaxError}
    (h : Program.ofSource source = .error e) :
    ∃ t ∈ (tokenize source).toList, e.position = t.position := by
  have hcompile : compile .plain source = .error (.parse e) := by
    rw [compile, h]
  obtain ⟨t, ht, hposition⟩ := exists_token_of_compile hcompile
  exact ⟨t, ht, Option.some.inj hposition⟩

/-- **Selectors do not change how a text reads.** Without them a text has the same
tokens, except that names and quoted texts lack them as well. Either both texts are read
as the same program, up to positions and selectors, or both are refused, for a fault of
the same kind at the same token. -/
theorem Program.ofSource_unselected {source : String}
    (h : ∀ u ∈ units source.toList, ∃ c ∈ u, c ≠ selector) :
    (tokenize (unselected source)).toList.map Located.value =
        (tokenize source).toList.map (Transcription.unselecting.token ·.value) ∧
      ((∃ p p', ofSource source = .ok p ∧ ofSource (unselected source) = .ok p' ∧
          p'.erase = (Transcription.unselecting.program p).erase) ∨
        ∃ e e', ofSource source = .error e ∧ ofSource (unselected source) = .error e' ∧
          e.kind = e'.kind ∧
          ∃ (i : Nat) (t t' : Located Token),
            (tokenize source).toList[i]? = some t ∧
            (tokenize (unselected source)).toList[i]? = some t' ∧
            e.position = t.position ∧ e'.position = t'.position) := by
  refine ⟨map_value_tokenize_unselected h, ?_⟩
  obtain ⟨f, hf⟩ := exists_relocate_unselected h
  have hmoved : ofSource (unselected source) =
      ((ofTokens (Transcription.unselecting.tokens (tokenize source))).map
        (Program.relocate f)).mapError (SyntaxError.relocate f) := by
    rw [ofSource, hf, ofTokens_relocate]
  rcases ofTokens_transcribed .unselecting (tokenize source) with
    ⟨p, hread, hread'⟩ | ⟨fault, q, hread, hread'⟩
  · rw [hread'] at hmoved
    exact .inl ⟨p, _, hread, hmoved, erase_relocate f _⟩
  · rw [hread'] at hmoved
    obtain ⟨t, ht, hposition⟩ := exists_token_of_ofSource hread
    obtain ⟨i, hi⟩ := List.mem_iff_getElem?.mp ht
    refine .inr ⟨_, _, hread, hmoved, (Transcription.kind_fault fault).symm, i, t,
      (Transcription.unselecting.located t).relocate f, hi, ?_, hposition, ?_⟩
    · rw [hf, Tokens.toList_relocate, Transcription.toList_tokens, List.map_map,
        List.getElem?_map, hi]
      rfl
    · exact congrArg f hposition

/-- A name of two symbols, one of them with a keycap, and a quotation whose opening
quote has a selector. -/
theorem Program.ofSource_unselected_declaration :
    (∀ u ∈ units "📝 ☎\uFE0F #\uFE0F\u20E3 👉 📋\uFE0F a\uFE0Fb 📋".toList,
        ∃ c ∈ u, c ≠ selector) ∧
      unselected "📝 ☎\uFE0F #\uFE0F\u20E3 👉 📋\uFE0F a\uFE0Fb 📋" =
        "📝 ☎ #\u20E3 👉 📋 ab 📋" ∧
      ∃ p, ofSource "📝 ☎ #\u20E3 👉 📋 ab 📋" = .ok p ∧
        p.erase =
          ⟨[.declaration ⟨"☎#\u20E3", .start⟩ (.text "ab" .start) .start], .start⟩ := by
  have hall : (units "📝 ☎\uFE0F #\uFE0F\u20E3 👉 📋\uFE0F a\uFE0Fb 📋".toList).all
      (·.any (· != selector)) = true := by decide +kernel
  have hunits : ∀ u ∈ units "📝 ☎\uFE0F #\uFE0F\u20E3 👉 📋\uFE0F a\uFE0Fb 📋".toList,
      ∃ c ∈ u, c ≠ selector := by
    intro u hu
    simpa using List.all_eq_true.mp hall u hu
  have hbare : unselected "📝 ☎\uFE0F #\uFE0F\u20E3 👉 📋\uFE0F a\uFE0Fb 📋" =
      "📝 ☎ #\u20E3 👉 📋 ab 📋" := by decide +kernel
  have htokens : tokenize "📝 ☎\uFE0F #\uFE0F\u20E3 👉 📋\uFE0F a\uFE0Fb 📋" =
      ⟨[⟨.declare, ⟨1, 1⟩⟩, ⟨.symbol "☎\uFE0F", ⟨1, 3⟩⟩, ⟨.symbol "#\uFE0F\u20E3", ⟨1, 6⟩⟩,
        ⟨.arrow, ⟨1, 10⟩⟩, ⟨.text "a\uFE0Fb", ⟨1, 12⟩⟩], ⟨1, 20⟩⟩ := by decide +kernel
  have hread : ofSource "📝 ☎\uFE0F #\uFE0F\u20E3 👉 📋\uFE0F a\uFE0Fb 📋" =
      .ok ⟨[.declaration ⟨"☎\uFE0F#\uFE0F\u20E3", ⟨1, 3⟩⟩ (.text "a\uFE0Fb" ⟨1, 12⟩) ⟨1, 1⟩],
        ⟨1, 1⟩⟩ := by
    rw [ofSource, htokens]
    rfl
  have hname : unselected "☎\uFE0F#\uFE0F\u20E3" = "☎#\u20E3" := by decide +kernel
  have htext : unselected "a\uFE0Fb" = "ab" := by decide +kernel
  refine ⟨hunits, hbare, ?_⟩
  rcases (ofSource_unselected hunits).2 with ⟨p, p', hp, hp', herase⟩ | ⟨e, e', he, -⟩
  · rw [hread] at hp
    cases hp
    rw [hbare] at hp'
    refine ⟨p', hp', herase.trans ?_⟩
    rw [← hname, ← htext]
    rfl
  · rw [hread] at he
    cases he

end Pictoscript
