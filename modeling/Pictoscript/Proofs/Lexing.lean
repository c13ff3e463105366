import Pictoscript.Proofs.Lexing.Tape

/-! # Units and their tokens

Facts about cutting text into tokens that do not depend on positions. A text
written as units with single spaces between them is cut into these units, and a
token written as the units that spell it is found again. No token that stands
for the end is ever cut from a text.
-/

namespace Pictoscript

/-- Characters that form one unit when blanks surround them. -/
structure IsUnit (cs : List Char) : Prop where
  ne_nil : cs ≠ []
  not_blank : ∀ c ∈ cs, isBlank c = false

theorem isUnit_of_all {cs : List Char} (hne : cs ≠ []) (h : cs.all (!isBlank ·) = true) :
    IsUnit cs := by
  refine ⟨hne, fun c hc => ?_⟩
  have hnot := List.all_eq_true.mp h c hc
  rwa [Bool.not_eq_true'] at hnot

def spaced (units : List (List Char)) : List Char := [' '].intercalate units

theorem spaced_cons (u : List Char) (us : List (List Char)) :
    spaced (u :: us) = u ++ us.flatMap (' ' :: ·) := by
  induction us generalizing u with
  | nil => simp [spaced, List.intercalate]
  | cons v us ih =>
      have h := ih v
      simp only [spaced, List.intercalate, List.intersperse_cons_cons, List.flatten_cons,
        List.flatMap_cons] at h ⊢
      rw [h]
      simp

theorem IsUnit.takeWhile_append {u tail : List Char} (hu : IsUnit u)
    (htail : ∀ c ∈ tail.head?, isBlank c = true) :
    (u ++ tail).takeWhile (fun c => !isBlank c) = u ∧
      (u ++ tail).dropWhile (fun c => !isBlank c) = tail := by
  have hall : ∀ c ∈ u, (!isBlank c) = true := fun c hc => by simp [hu.not_blank c hc]
  rw [List.takeWhile_append_of_pos hall, List.dropWhile_append_of_pos hall]
  cases tail with
  | nil => simp
  | cons c tail => simp [htail c rfl]

/-- Does a token look like one that is cut from a text? There a digit is decimal,
a symbol is a unit of symbols and a quoted text has no blanks; the quote and the
end are not among the tokens. -/
def Token.isGenuine : Token → Bool
  | .digit value => value < 10
  | .text value => value.toList.all fun c => !isBlank c
  | .symbol unit => Pictograph.isSymbol unit.toList
  | .quote | .endOfInput => false
  | _ => true

namespace Cursor

/-! ## Units -/

/-- Behind any blanks, the text goes on with these units. -/
def Ahead (k : Cursor) (units : List (List Char)) : Prop := k.skipBlanks.rest = spaced units

theorem ahead_of_rest {k : Cursor} {us : List (List Char)} (hus : ∀ u ∈ us, IsUnit u)
    (h : k.rest = spaced us) : k.Ahead us := by
  rw [Ahead, skipBlanks, skip, h]
  cases us with
  | nil => rfl
  | cons u us =>
      have hu := hus u (by simp)
      obtain ⟨c, cs, rfl⟩ := List.exists_cons_of_ne_nil hu.ne_nil
      rw [spaced_cons, List.cons_append]
      exact List.dropWhile_cons_of_neg (by simp [hu.not_blank c (by simp)])

theorem ahead_of_flatMap {k : Cursor} {us : List (List Char)} (hus : ∀ u ∈ us, IsUnit u)
    (h : k.rest = us.flatMap (' ' :: ·)) : k.Ahead us := by
  cases us with
  | nil => exact ahead_of_rest hus h
  | cons u us =>
      have hspaced : k.rest = ' ' :: spaced (u :: us) := by rw [h, spaced_cons]; rfl
      have hrest : (⟨spaced (u :: us), k.position⟩ : Cursor).Ahead (u :: us) :=
        ahead_of_rest hus rfl
      rw [Ahead, skipBlanks, skip] at hrest ⊢
      rw [hspaced]
      exact hrest

theorem unit?_of_ahead_nil {k : Cursor} (h : k.Ahead []) : k.unit? = none := by
  rw [unit?, h]
  rfl

theorem unit?_of_ahead_cons {k : Cursor} {u : List Char} {us : List (List Char)}
    (hus : ∀ v ∈ u :: us, IsUnit v) (h : k.Ahead (u :: us)) :
    ∃ p after, k.unit? = some (⟨u, p⟩, after) ∧ after.Ahead us := by
  have hu : IsUnit u := hus u (by simp)
  have htail : ∀ c ∈ (us.flatMap (' ' :: ·)).head?, isBlank c = true := by
    cases us with
    | nil => simp
    | cons v us => simp [isBlank]
  obtain ⟨htake, hdrop⟩ := hu.takeWhile_append htail
  refine ⟨k.skipBlanks.position, k.skipBlanks.skip fun c => !isBlank c, ?_, ?_⟩
  · rw [unit?, h, spaced_cons, htake]
    obtain ⟨c, cs, rfl⟩ := List.exists_cons_of_ne_nil hu.ne_nil
    rfl
  · apply ahead_of_flatMap fun v hv => hus v (List.mem_cons_of_mem u hv)
    rw [skip, h, spaced_cons, hdrop]

/-! ## Quotations -/

theorem quotation_of_unit? {k after : Cursor} {u : Located (List Char)}
    (h : k.unit? = some (u, after)) :
    k.quotation = if isQuote u.value then ⟨[], true, after⟩ else
      { after.quotation with content := u.value ++ after.quotation.content } := by
  rw [quotation]
  split
  · next hnone => rw [hnone] at h; cases h
  · next u' after' hsome =>
    rw [h] at hsome
    cases hsome
    rfl

/-- A quotation takes the units up to the next quote. -/
theorem quotation_of_ahead {quote : List Char} (hquote : isQuote quote = true)
    {us : List (List Char)} : ∀ {body : List (List Char)} {k : Cursor},
    (∀ u ∈ body ++ quote :: us, IsUnit u) → (∀ u ∈ body, isQuote u = false) →
    k.Ahead (body ++ quote :: us) →
    ∃ after, k.quotation = ⟨body.flatten, true, after⟩ ∧ after.Ahead us
  | [], k, hunits, _, h => by
      obtain ⟨p, after, hunit, hafter⟩ := unit?_of_ahead_cons hunits h
      exact ⟨after, by rw [quotation_of_unit? hunit, if_pos hquote]; rfl, hafter⟩
  | u :: body, k, hunits, hbody, h => by
      obtain ⟨p, after, hunit, hafter⟩ := unit?_of_ahead_cons hunits h
      obtain ⟨last, hlast, hahead⟩ := quotation_of_ahead hquote
        (fun v hv => hunits v (List.mem_cons_of_mem u hv))
        (fun v hv => hbody v (List.mem_cons_of_mem u hv)) hafter
      refine ⟨last, ?_, hahead⟩
      rw [quotation_of_unit? hunit, if_neg (by simp [hbody u (by simp)]), hlast]
      rfl

/-! ## Tokens -/

theorem tokens_of_next?_none {k : Cursor} (h : k.next? = none) :
    k.tokens = ⟨[], k.skipBlanks.position⟩ := by
  rw [tokens]
  split
  · rfl
  · next hsome => rw [h] at hsome; cases hsome

theorem tokens_of_next?_some {k after : Cursor} {t : Located Token}
    (h : k.next? = some (t, after)) :
    k.tokens = { after.tokens with items := t :: after.tokens.items } := by
  rw [tokens]
  split
  · next hnone => rw [h] at hnone; cases hnone
  · next hsome =>
    rw [h] at hsome
    cases hsome
    rfl

theorem unit?_not_blank {k after : Cursor} {u : Located (List Char)}
    (h : k.unit? = some (u, after)) : u.value.all (fun c => !isBlank c) = true := by
  rw [unit?] at h
  split at h
  · cases h
  · next c cs hc =>
    cases h
    rw [← hc]
    exact List.all_takeWhile

/-- Blanks are not part of a quotation. -/
theorem quotation_not_blank (k : Cursor) :
    k.quotation.content.all (fun c => !isBlank c) = true := by
  fun_induction quotation k with
  | case1 k h => rfl
  | case2 k u after h hquote => rfl
  | case3 k u after h hquote q ih =>
      rw [List.all_append, unit?_not_blank h, ih]
      rfl

theorem genuine_of_next? {k after : Cursor} {t : Located Token}
    (h : k.next? = some (t, after)) : t.value.isGenuine = true := by
  have hwords : ∀ w ∈ vocabulary, w.token ≠ .quote → w.token.isGenuine = true := by decide
  rw [next?] at h
  split at h
  · cases h
  · next u after' hu =>
    split at h
    · next w hw =>
      split at h
      · cases h
        dsimp only
        rw [Quotation.token]
        split
        · rw [Token.isGenuine, String.toList_ofList]
          exact quotation_not_blank after'
        · rfl
      · next hquote =>
        cases h
        exact hwords w (List.mem_of_find?_eq_some hw) hquote
    · split at h
      · next hsymbol =>
        cases h
        rw [Token.isGenuine, String.toList_ofList]
        exact hsymbol
      · cases h
        rfl

theorem genuine_of_mem_tokens (k : Cursor) : ∀ t ∈ k.tokens.items, t.value.isGenuine = true := by
  fun_induction tokens k with
  | case1 k h => simp
  | case2 k t after h ts ih =>
      intro u hu
      rcases List.mem_cons.mp hu with rfl | hu
      · exact genuine_of_next? h
      · exact ih u hu

end Cursor

/-! ## Spelling tokens -/

/-- The units that spell a token: for a quoted text the text between two quotes,
for a symbol its own unit, and for any other token its word. -/
def Token.units : Token → List String
  | .text value => if value = "" then ["📋", "📋"] else ["📋", value, "📋"]
  | .symbol unit => [unit]
  | t => (t.word?.map Word.symbol).toList

/-- Tokens whose units are read as the token. Blanks in a quotation are dropped,
so a text must be empty or one unit. -/
inductive Token.Spellable : Token → Prop where
  | empty : Spellable (.text "")
  | text {value : String} (unit : IsUnit value.toList)
      (unquoted : isQuote value.toList = false) : Spellable (.text value)
  | symbol {unit : String} (unspelled : Word.spelled? unit.toList = none)
      (symbolic : Pictograph.isSymbol unit.toList = true) : Spellable (.symbol unit)
  | word {w : Word} (listed : w ∈ vocabulary) (unquoted : w.token ≠ .quote) : Spellable w.token

/-- Each word of the vocabulary is found under its own pictograph. -/
theorem spelled?_symbol : ∀ w ∈ vocabulary, Word.spelled? w.symbol.toList = some w := by
  decide +kernel

theorem units_token : ∀ w ∈ vocabulary, w.token.units = [w.symbol] := by
  decide +kernel

theorem isUnit_symbol {w : Word} (hw : w ∈ vocabulary) : IsUnit w.symbol.toList := by
  have h : ∀ w ∈ vocabulary, w.symbol.toList ≠ [] ∧
      w.symbol.toList.all (!isBlank ·) = true := by
    decide +kernel
  exact isUnit_of_all (h w hw).1 (h w hw).2

theorem isUnit_quote : IsUnit "📋".toList := isUnit_of_all (by decide) (by decide)

theorem isQuote_quote : isQuote "📋".toList = true := by decide

/-- No blank may be part of a symbol. -/
theorem isUnit_of_isSymbol {u : List Char} (h : Pictograph.isSymbol u = true) : IsUnit u := by
  simp only [Pictograph.isSymbol, Bool.and_eq_true, List.all_eq_true] at h
  obtain ⟨hall, hsome⟩ := h
  refine ⟨?_, fun c hc => ?_⟩
  · rintro rfl
    exact absurd hsome (by decide)
  · cases hblank : isBlank c with
    | false => rfl
    | true =>
        have hclass := hall c hc
        simp only [isBlank, Bool.or_eq_true, beq_iff_eq] at hblank
        rcases hblank with ((rfl | rfl) | rfl) | rfl <;> revert hclass <;>
          cases u.contains Pictograph.keycap <;> decide

theorem Token.units_text {value : String} (h : value ≠ "") :
    (Token.text value).units = ["📋", value, "📋"] := if_neg h

theorem ne_empty_of_isUnit {value : String} (h : IsUnit value.toList) : value ≠ "" := by
  rintro rfl
  exact h.ne_nil rfl

theorem Token.Spellable.isUnit {t : Token} (h : t.Spellable) :
    ∀ u ∈ t.units.map String.toList, IsUnit u := by
  cases h with
  | empty => simpa [Token.units] using isUnit_quote
  | text unit _ => simpa [Token.units_text (ne_empty_of_isUnit unit)] using
      ⟨isUnit_quote, unit, isUnit_quote⟩
  | symbol _ symbolic => simpa [Token.units] using isUnit_of_isSymbol symbolic
  | word listed _ => simpa [units_token _ listed] using isUnit_symbol listed

namespace Cursor

/-- An opening quote is read together with its quotation. -/
theorem next?_of_quote {k : Cursor} (body : List (List Char)) {us : List (List Char)}
    (hunits : ∀ u ∈ "📋".toList :: (body ++ "📋".toList :: us), IsUnit u)
    (hbody : ∀ u ∈ body, isQuote u = false)
    (h : k.Ahead ("📋".toList :: (body ++ "📋".toList :: us))) :
    ∃ p after, k.next? = some (⟨.text (String.ofList body.flatten), p⟩, after) ∧
      after.Ahead us := by
  obtain ⟨p, open_, hunit, hopen⟩ := unit?_of_ahead_cons hunits h
  obtain ⟨after, hquotation, hafter⟩ := quotation_of_ahead isQuote_quote
    (fun u hu => hunits u (List.mem_cons_of_mem _ hu)) hbody hopen
  have hword : Word.spelled? "📋".toList = some ⟨"📋", "quote", .quote⟩ := by decide
  refine ⟨p, after, ?_, hafter⟩
  rw [next?, hunit]
  simp only [hword, if_true, hquotation, Quotation.token]

/-- The units that spell a token are read as the token. -/
theorem next?_of_ahead {k : Cursor} {t : Token} {us : List (List Char)} (ht : t.Spellable)
    (hus : ∀ u ∈ us, IsUnit u) (h : k.Ahead (t.units.map String.toList ++ us)) :
    ∃ p after, k.next? = some (⟨t, p⟩, after) ∧ after.Ahead us := by
  have hunits : ∀ u ∈ t.units.map String.toList ++ us, IsUnit u := by
    intro u hu
    rcases List.mem_append.mp hu with hu | hu
    · exact ht.isUnit u hu
    · exact hus u hu
  cases ht with
  | empty => exact next?_of_quote [] hunits (by simp) h
  | text unit unquoted =>
      rw [Token.units_text (ne_empty_of_isUnit unit)] at hunits h
      simpa using next?_of_quote [_] hunits (by simpa using unquoted) h
  | symbol unspelled symbolic =>
      obtain ⟨p, after, hunit, hafter⟩ := unit?_of_ahead_cons hunits h
      refine ⟨p, after, ?_, hafter⟩
      rw [next?, hunit]
      simp only [unspelled, symbolic, if_true, String.ofList_toList]
  | word listed unquoted =>
      rw [units_token _ listed] at hunits h
      obtain ⟨p, after, hunit, hafter⟩ := unit?_of_ahead_cons hunits h
      refine ⟨p, after, ?_, hafter⟩
      rw [next?, hunit]
      simp only [spelled?_symbol _ listed, unquoted, if_false]

theorem tokens_of_ahead : ∀ {ts : List Token} {k : Cursor}, (∀ t ∈ ts, t.Spellable) →
    k.Ahead ((ts.flatMap Token.units).map String.toList) →
    k.tokens.items.map Located.value = ts
  | [], k, _, h => by
      have hnext : k.next? = none := by rw [next?, unit?_of_ahead_nil h]
      rw [tokens_of_next?_none hnext]
      rfl
  | t :: ts, k, hts, h => by
      rw [List.flatMap_cons, List.map_append] at h
      have hus : ∀ u ∈ (ts.flatMap Token.units).map String.toList, IsUnit u := by
        intro u hu
        obtain ⟨s, hs, rfl⟩ := List.mem_map.mp hu
        obtain ⟨t', ht', hs⟩ := List.mem_flatMap.mp hs
        exact (hts t' (List.mem_cons_of_mem t ht')).isUnit _ (List.mem_map_of_mem hs)
      obtain ⟨p, after, hnext, hafter⟩ := next?_of_ahead (hts t (by simp)) hus h
      rw [tokens_of_next?_some hnext, List.map_cons,
        tokens_of_ahead (fun t' ht' => hts t' (List.mem_cons_of_mem t ht')) hafter]

end Cursor

def spell (ts : List Token) : String := " ".intercalate (ts.flatMap Token.units)

/-- Spelled tokens are cut from their text again, wherever it begins. -/
theorem Cursor.tokens_of_spell {ts : List Token} {k : Cursor} (h : ∀ t ∈ ts, t.Spellable)
    (hrest : k.rest = (spell ts).toList) : k.tokens.items.map Located.value = ts := by
  apply Cursor.tokens_of_ahead h
  apply Cursor.ahead_of_rest
  · intro u hu
    obtain ⟨s, hs, rfl⟩ := List.mem_map.mp hu
    obtain ⟨t, ht, hs⟩ := List.mem_flatMap.mp hs
    exact (h t ht).isUnit _ (List.mem_map_of_mem hs)
  · rw [hrest, spell, String.toList_intercalate]
    rfl

/-- A tape gives the tokens of the cursor it follows. -/
theorem Tape.Follows.tokens {k : Cursor} : ∀ {t : Tape}, t.Follows k → t.tokens = k.tokens := by
  fun_induction Cursor.tokens k with
  | case1 k hnone =>
      intro t h
      obtain ⟨last, hnext, -⟩ := h.next_of_none hnone
      rw [Tape.tokens, hnext]
      rfl
  | case2 k token after hsome ts =>
      rename_i ih
      intro t h
      obtain ⟨last, hnext, hfollows⟩ := h.next_of_some hsome
      have hgoes : token.value ≠ .endOfInput := by
        intro hend
        have hgenuine := Cursor.genuine_of_next? hsome
        rw [hend] at hgenuine
        cases hgenuine
      rw [Tape.tokens, hnext, dif_neg hgoes, ih hfollows]

theorem tokenize_eq (source : String) : tokenize source = (Cursor.ofText source).tokens :=
  Tape.Follows.tokens ⟨"", Tape.stands_ofText source⟩

theorem tokenize_spell {ts : List Token} (h : ∀ t ∈ ts, t.Spellable) :
    (tokenize (spell ts)).items.map Located.value = ts :=
  tokenize_eq (spell ts) ▸ Cursor.tokens_of_spell h rfl

theorem genuine_of_mem_tokenize {source : String} :
    ∀ t ∈ (tokenize source).items, t.value.isGenuine = true :=
  tokenize_eq source ▸ Cursor.genuine_of_mem_tokens (Cursor.ofText source)

/-- The end is not among the tokens of a text. -/
theorem tokenize_ne_endOfInput (source : String) :
    ∀ t ∈ (tokenize source).items, t.value ≠ .endOfInput := by
  intro t ht hend
  have hgenuine := genuine_of_mem_tokenize t ht
  rw [hend] at hgenuine
  cases hgenuine

end Pictoscript
