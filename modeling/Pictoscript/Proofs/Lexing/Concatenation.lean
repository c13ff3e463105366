import Mathlib.Data.List.TakeWhile
import Pictoscript.Proofs.Lexing.Positions

/-! # Texts that follow each other

How a text is cut into tokens when another text follows it behind a blank. A
blank ends every unit, so the tokens of both texts come out one after the other,
unless the first text leaves a quotation open: then the second text goes on
inside it. A quotation is open at the end of a text just when the text has an odd
number of units that spell the quote.
-/

namespace Pictoscript

/-! ## Units of a text -/

/-- The maximal runs of characters that are not blank. -/
def units (text : List Char) : List (List Char) :=
  (text.splitOnP isBlank).filter (!·.isEmpty)

theorem units_append_blank {c : Char} (hc : isBlank c = true) (as bs : List Char) :
    units (as ++ c :: bs) = units as ++ units bs := by
  rw [units, List.splitOnP_append_cons as bs hc, List.filter_append]
  rfl

theorem units_blanks_append {bs : List Char} (h : ∀ c ∈ bs, isBlank c = true)
    (cs : List Char) : units (bs ++ cs) = units cs := by
  induction bs with
  | nil => rfl
  | cons b bs ih =>
      obtain ⟨hb, hbs⟩ := List.forall_mem_cons.mp h
      have hsplit := units_append_blank hb [] (bs ++ cs)
      rw [List.nil_append] at hsplit
      rw [List.cons_append, hsplit, ih hbs]
      rfl

theorem units_of_isUnit {u : List Char} (h : IsUnit u) : units u = [u] := by
  rw [units, List.splitOnP_eq_singleton h.not_blank]
  simp [h.ne_nil]

def quotes (text : List Char) : Nat := (units text).countP isQuote

/-- Every quotation is opened by one quote and closed by another, so a text ends
inside a quotation if one of its quotes is left over. -/
def EndsInQuotation (source : String) : Prop := quotes source.toList % 2 = 1

instance (source : String) : Decidable (EndsInQuotation source) :=
  inferInstanceAs (Decidable (_ = _))

namespace Cursor

theorem units_of_unit?_none {k : Cursor} (h : k.unit? = none) : units k.rest = [] := by
  have hdrop : k.rest.dropWhile isBlank = [] := rest_skipBlanks_of_unit?_none h
  have hblank : ∀ c ∈ k.rest, isBlank c = true := List.dropWhile_eq_nil_iff.mp hdrop
  rw [← List.append_nil k.rest, units_blanks_append hblank]
  rfl

/-- A unit stands behind the blanks, and in front of a blank or of the end. -/
theorem split_of_unit? {k after : Cursor} {u : Located (List Char)}
    (h : k.unit? = some (u, after)) :
    IsUnit u.value ∧ k.rest = k.rest.takeWhile isBlank ++ (u.value ++ after.rest) ∧
      ∀ c ∈ after.rest.head?, isBlank c = true := by
  obtain ⟨hvalue, hne, -, hafter⟩ := unit?_eq_some_iff.mp h
  refine ⟨isUnit_of_all hne (unit?_not_blank h), ?_, ?_⟩
  · have hrest : k.skipBlanks.rest = u.value ++ after.rest := by
      rw [hvalue, hafter, skip, List.takeWhile_append_dropWhile]
    rw [← hrest, skipBlanks, skip, List.takeWhile_append_dropWhile]
  · have hnot := List.head?_dropWhile_not (fun c => !isBlank c) k.skipBlanks.rest
    intro c hc
    rw [hafter, skip] at hc
    rw [Option.mem_def.mp hc] at hnot
    simpa using hnot

theorem units_of_unit? {k after : Cursor} {u : Located (List Char)}
    (h : k.unit? = some (u, after)) : units k.rest = u.value :: units after.rest := by
  obtain ⟨hunit, hsplit, hend⟩ := split_of_unit? h
  have hblank : ∀ c ∈ k.rest.takeWhile isBlank, isBlank c = true :=
    List.all_eq_true.mp List.all_takeWhile
  rw [hsplit, units_blanks_append hblank]
  cases hbehind : after.rest with
  | nil =>
      rw [List.append_nil, units_of_isUnit hunit]
      rfl
  | cons c cs =>
      have hc : isBlank c = true := hend c (by rw [hbehind]; rfl)
      have hblank : ∀ d ∈ [c], isBlank d = true := by simpa using hc
      have hcs : units (c :: cs) = units cs := units_blanks_append hblank cs
      rw [units_append_blank hc, units_of_isUnit hunit, hcs]
      rfl

theorem quotes_of_unit?_none {k : Cursor} (h : k.unit? = none) : quotes k.rest = 0 := by
  rw [quotes, units_of_unit?_none h]
  rfl

theorem quotes_of_unit? {k after : Cursor} {u : Located (List Char)}
    (h : k.unit? = some (u, after)) :
    quotes k.rest = quotes after.rest + if isQuote u.value then 1 else 0 := by
  rw [quotes, units_of_unit? h, List.countP_cons]
  rfl

/-- A quotation that is closed has used up one more quote. -/
theorem quotes_quotation (k : Cursor) :
    quotes k.rest = if k.quotation.closed then quotes k.quotation.after.rest + 1 else 0 := by
  fun_induction quotation k with
  | case1 k h => exact quotes_of_unit?_none h
  | case2 k u after h hquote => simp [quotes_of_unit? h, hquote]
  | case3 k u after h hquote q ih =>
      rw [quotes_of_unit? h, if_neg hquote, ih]
      rfl

theorem isQuote_of_spelled? {u : List Char} {w : Word} (h : Word.spelled? u = some w) :
    isQuote u = (w.token == .quote) := by
  rw [isQuote, h]
  rfl

theorem isQuote_of_spelled?_none {u : List Char} (h : Word.spelled? u = none) :
    isQuote u = false := by
  rw [isQuote, h]
  rfl

/-- What a token leaves of the quotes: a pair of them is used up or none, except
that a quotation without end takes all that is left. -/
theorem quotes_of_next? {k after : Cursor} {t : Located Token} (h : k.next? = some (t, after)) :
    quotes after.rest % 2 = quotes k.rest % 2 ∨
      quotes k.rest = 1 ∧ ∃ unit, t.value = .illegal unit := by
  rw [next?] at h
  split at h
  · cases h
  · next u after' hu =>
    have hunit := quotes_of_unit? hu
    split at h
    · next w hw =>
      rw [isQuote_of_spelled? hw] at hunit
      split at h
      · next hquote =>
        cases h
        have hquotation := quotes_quotation after'
        simp only [hquote, beq_self_eq_true, if_true] at hunit
        cases hclosed : after'.quotation.closed with
        | true =>
            rw [hclosed, if_pos rfl] at hquotation
            left
            omega
        | false =>
            rw [hclosed] at hquotation
            have hillegal : after'.quotation.token =
                .illegal ("📋" ++ String.ofList after'.quotation.content) := by
              rw [Quotation.token, hclosed]
              rfl
            exact .inr ⟨by simpa [hquotation] using hunit, _, hillegal⟩
      · next hquote =>
        cases h
        simp only [beq_iff_eq, hquote, if_false, Nat.add_zero] at hunit
        rw [hunit]
        exact .inl rfl
    · next hw =>
      rw [isQuote_of_spelled?_none hw] at hunit
      simp only [Bool.false_eq_true, if_false, Nat.add_zero] at hunit
      rw [hunit]
      split at h <;> cases h <;> exact .inl rfl

/-- A quotation that is left open shows as an illegal token. -/
theorem exists_illegal_of_quotes (k : Cursor) (h : quotes k.rest % 2 = 1) :
    ∃ t ∈ k.tokens.items, ∃ unit, t.value = .illegal unit := by
  fun_induction tokens k with
  | case1 k hnext =>
      rw [quotes_of_unit?_none (next?_eq_none_iff.mp hnext)] at h
      cases h
  | case2 k t after hnext ts ih =>
      rcases quotes_of_next? hnext with hsame | ⟨-, hillegal⟩
      · obtain ⟨s, hs, hvalue⟩ := ih (hsame.trans h)
        exact ⟨s, List.mem_cons_of_mem t hs, hvalue⟩
      · exact ⟨t, List.mem_cons_self .., hillegal⟩

/-! ## A text with another one behind it -/

def append (k : Cursor) (cs : List Char) : Cursor := ⟨k.rest ++ cs, k.position⟩

/-- A run ends where it ended before, or else where the added characters begin. -/
theorem takeWhile_dropWhile_append {p : Char → Bool} {as bs : List Char}
    (h : as.dropWhile p ≠ [] ∨ ∀ c ∈ bs.head?, p c = false) :
    (as ++ bs).takeWhile p = as.takeWhile p ∧ (as ++ bs).dropWhile p = as.dropWhile p ++ bs := by
  induction as with
  | nil =>
      cases bs with
      | nil => exact ⟨rfl, rfl⟩
      | cons b bs =>
          have hb : p b = false := h.resolve_left (by simp) b rfl
          simp [hb]
  | cons a as ih =>
      by_cases ha : p a = true
      · rw [List.dropWhile_cons_of_pos ha] at h
        simp [ha, ih h]
      · simp [ha]

theorem skip_append {p : Char → Bool} {k : Cursor} {cs : List Char}
    (h : (k.skip p).rest ≠ [] ∨ ∀ c ∈ cs.head?, p c = false) :
    (k.append cs).skip p = (k.skip p).append cs := by
  obtain ⟨htake, hdrop⟩ := takeWhile_dropWhile_append h
  rw [skip, append, htake, hdrop]
  rfl

variable {c : Char} {cs : List Char}

/-- A blank ends a unit. -/
theorem unit?_append {k after : Cursor} {u : Located (List Char)} (hc : isBlank c = true)
    (h : k.unit? = some (u, after)) :
    (k.append (c :: cs)).unit? = some (u, after.append (c :: cs)) := by
  obtain ⟨hvalue, hne, hposition, hafter⟩ := unit?_eq_some_iff.mp h
  have hrest : k.skipBlanks.rest ≠ [] := by
    intro hnil
    rw [hnil] at hvalue
    exact hne hvalue
  have hblanks : (k.append (c :: cs)).skipBlanks = k.skipBlanks.append (c :: cs) :=
    skip_append (.inl hrest)
  have hend : ∀ d ∈ (c :: cs).head?, (!isBlank d) = false := by simp [hc]
  refine unit?_eq_some_iff.mpr ⟨?_, hne, ?_, ?_⟩
  · rw [hblanks, append, hvalue]
    exact (takeWhile_dropWhile_append (.inr hend)).1.symm
  · rw [hblanks]
    exact hposition
  · rw [hblanks, skip_append (.inr hend), hafter]

/-- Blanks alone leave nothing in front of the second text. -/
theorem skipBlanks_append {k : Cursor} (hc : isBlank c = true) (h : k.unit? = none) :
    (k.append (c :: cs)).skipBlanks = (⟨cs, k.finish.advance c⟩ : Cursor).skipBlanks := by
  have hdrop : k.rest.dropWhile isBlank = [] := rest_skipBlanks_of_unit?_none h
  have hblank : ∀ d ∈ k.rest, isBlank d = true := List.dropWhile_eq_nil_iff.mp hdrop
  rw [skipBlanks, skip, append, List.takeWhile_append_of_pos hblank,
    List.dropWhile_append_of_pos hblank, List.takeWhile_cons_of_pos hc,
    List.dropWhile_cons_of_pos hc, List.foldl_append, List.foldl_cons]
  rfl

/-- Only the text behind the blanks counts. -/
theorem tokens_congr {k k' : Cursor} (h : k.skipBlanks = k'.skipBlanks) : k.tokens = k'.tokens := by
  have hunit : k.unit? = k'.unit? := by rw [unit?, unit?, h]
  have hnext : k.next? = k'.next? := by rw [next?, next?, hunit]
  cases hk : k'.next? with
  | none => rw [tokens_of_next?_none (hnext.trans hk), tokens_of_next?_none hk, h]
  | some found =>
      obtain ⟨t, after⟩ := found
      rw [tokens_of_next?_some (hnext.trans hk), tokens_of_next?_some hk]

theorem quotation_append {k : Cursor} (hc : isBlank c = true) (h : k.quotation.closed = true) :
    (k.append (c :: cs)).quotation =
      { k.quotation with after := k.quotation.after.append (c :: cs) } := by
  fun_induction quotation k with
  | case1 k hunit => cases h
  | case2 k u after hunit hquote => rw [quotation_of_unit? (unit?_append hc hunit), if_pos hquote]
  | case3 k u after hunit hquote q ih =>
      rw [quotation_of_unit? (unit?_append hc hunit), if_neg hquote, ih h]

/-- A token is the same with another text behind it, unless it is a quotation that
is left open. -/
theorem next?_append {k after : Cursor} {t : Located Token} (hc : isBlank c = true)
    (hquotes : quotes k.rest % 2 = 0) (h : k.next? = some (t, after)) :
    (k.append (c :: cs)).next? = some (t, after.append (c :: cs)) := by
  rw [next?] at h ⊢
  split at h
  · cases h
  · next u after' hu =>
    rw [unit?_append hc hu]
    have hunit := quotes_of_unit? hu
    dsimp only
    split at h
    · next w hw =>
      split at h
      · next hquote =>
        cases h
        have hclosed : after'.quotation.closed = true := by
          have hquotation := quotes_quotation after'
          rw [isQuote_of_spelled? hw, hquote] at hunit
          cases hclosed : after'.quotation.closed with
          | true => rfl
          | false =>
              rw [hclosed] at hquotation
              simp only [Bool.false_eq_true, if_false, beq_self_eq_true, if_true] at *
              omega
        rw [if_pos hquote, quotation_append hc hclosed]
        rfl
      · next hquote =>
        cases h
        rw [if_neg hquote]
    · next hw =>
      split at h
      · next hsymbol =>
        cases h
        rw [if_pos hsymbol]
      · next hsymbol =>
        cases h
        rw [if_neg hsymbol]

/-- The tokens of two texts with a blank between them. -/
theorem tokens_append {k : Cursor} (hc : isBlank c = true) (hquotes : quotes k.rest % 2 = 0) :
    (k.append (c :: cs)).tokens =
      { (⟨cs, k.finish.advance c⟩ : Cursor).tokens with
        items := k.tokens.items ++ (⟨cs, k.finish.advance c⟩ : Cursor).tokens.items } := by
  fun_induction tokens k with
  | case1 k h => rw [tokens_congr (skipBlanks_append hc (next?_eq_none_iff.mp h))]; rfl
  | case2 k t after h ts ih =>
      have hafter : quotes after.rest % 2 = 0 := by
        rcases quotes_of_next? h with hsame | ⟨hone, -⟩
        · exact hsame.trans hquotes
        · omega
      rw [tokens_of_next?_some (next?_append hc hquotes h), ih hafter, finish_of_next? h]
      rfl

end Cursor

/-- The tokens of a text, a blank and a second text are those of the first text and
then those of the second, which begins behind the blank. -/
theorem tokenize_append {a b : String} {c : Char} (hc : isBlank c = true)
    (ha : ¬EndsInQuotation a) :
    (tokenize (a ++ String.singleton c ++ b)).items =
      (tokenize a).items ++ (⟨b.toList, (tokenize a).stop.advance c⟩ : Cursor).tokens.items := by
  have hquotes : quotes (Cursor.ofText a).rest % 2 = 0 := by
    have hnot : ¬quotes a.toList % 2 = 1 := ha
    show quotes a.toList % 2 = 0
    omega
  have htext : Cursor.ofText (a ++ String.singleton c ++ b) =
      (Cursor.ofText a).append (c :: b.toList) := by
    simp [Cursor.ofText, Cursor.append]
  rw [tokenize_eq, htext, Cursor.tokens_append hc hquotes, tokenize_eq, Cursor.stop_tokens]

/-- A text without illegal tokens does not end inside a quotation. -/
theorem not_endsInQuotation {source : String}
    (h : ∀ t ∈ (tokenize source).items, ∀ unit, t.value ≠ .illegal unit) :
    ¬EndsInQuotation source := by
  intro hopen
  obtain ⟨t, ht, unit, hvalue⟩ := Cursor.exists_illegal_of_quotes (Cursor.ofText source) hopen
  rw [← tokenize_eq] at ht
  exact h t ht unit hvalue

end Pictoscript
