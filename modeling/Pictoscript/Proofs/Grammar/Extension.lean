import Pictoscript.Proofs.Grammar.Complete

/-! # Reading a longer text

A reader looks at no more than the tokens it consumes and one behind them, or two
behind a `🚫`. So an outcome that does not come from reaching the end of the
tokens is final: with further tokens behind the text the same reader has the same
outcome, and leaves the further tokens over as well.

The lemmas compare a reader `r` on tokens `ts` with a reader `r'` on `ts ++ us`.
The two are the same but for the recursion bound and the end of the text, which
both grow with the text.
-/

namespace Pictoscript

/-- The outcome leaves open what comes behind the tokens: all of them are
consumed, or the error is reported at the end of the text. -/
def Outcome.AtEnd {α : Type} (stop : Position) : Outcome α → Prop
  | .done _ rest => rest = []
  | .failed e => e.position = stop
  | .unfinished => True

def Outcome.extend {α : Type} (us : List (Located Token)) : Outcome α → Outcome α
  | .done a rest => .done a (rest ++ us)
  | .failed e => .failed e
  | .unfinished => .unfinished

namespace Reading

variable {α β : Type} {stop stop' : Position} {ts us : List (Located Token)}

/-- Reading `ts` comes to the end, or `r'` reads the longer text in the same way. -/
def Settles (stop stop' : Position) (us : List (Located Token)) (r r' : Reading α)
    (ts : List (Located Token)) : Prop :=
  (r stop ts).AtEnd stop ∨ ts ≠ [] ∧ r' stop' (ts ++ us) = (r stop ts).extend us

/-! ## Combining readings -/

theorem Settles.atEnd {r r' : Reading α} (h : Settles stop stop' us r r' []) :
    (r stop []).AtEnd stop := by
  rcases h with h | ⟨hne, -⟩
  · exact h
  · exact absurd rfl hne

theorem settles_bind {r r' : Reading α} {f f' : α → Reading β}
    (h : Settles stop stop' us r r' ts)
    (hf : ∀ a rest, r stop ts = .done a rest → Settles stop stop' us (f a) (f' a) rest) :
    Settles stop stop' us (r >>= f) (r' >>= f') ts := by
  rw [Settles, bind_apply, bind_apply]
  cases hr : r stop ts with
  | done a rest =>
      rw [Settles, hr] at h
      rcases h with hend | ⟨hne, hlonger⟩
      · -- What comes next starts at the end, so it stays there.
        obtain rfl : rest = [] := hend
        exact .inl (hf a [] hr).atEnd
      · rcases hf a rest hr with hend | ⟨-, hrest⟩
        · exact .inl hend
        · refine .inr ⟨hne, ?_⟩
          rw [hlonger]
          exact hrest
  | failed e =>
      rw [Settles, hr] at h
      rcases h with hend | ⟨hne, hlonger⟩
      · exact .inl hend
      · refine .inr ⟨hne, ?_⟩
        rw [hlonger]
        rfl
  | unfinished => exact .inl trivial

theorem settles_pure (a : α) : Settles stop stop' us (pure a) (pure a) ts := by
  cases ts with
  | nil => exact .inl rfl
  | cons t ts => exact .inr ⟨by simp, rfl⟩

theorem settles_unfinished (r' : Reading α) : Settles stop stop' us unfinished r' ts :=
  .inl trivial

theorem settles_current_bind {f f' : Located Token → Reading β}
    (h : ∀ t p, head stop ts = ⟨t, p⟩ → Settles stop stop' us (f ⟨t, p⟩) (f' ⟨t, p⟩) ts) :
    Settles stop stop' us (current >>= f) (current >>= f') ts := by
  cases ts with
  | nil => exact .inl (h _ _ rfl).atEnd
  | cons t ts => exact h t.value t.position rfl

/-- The first token is refused, or the end is. -/
theorem settles_refuse {t : Token} {p : Position} (fault : Fault)
    (h : head stop ts = ⟨t, p⟩) :
    Settles stop stop' us (refuse fault p : Reading α) (refuse fault p) ts := by
  cases ts with
  | nil =>
      cases h
      exact .inl rfl
  | cons t ts => exact .inr ⟨by simp, rfl⟩

theorem settles_skip : Settles stop stop' us skip skip ts := by
  cases ts with
  | nil => exact .inl rfl
  | cons t ts => exact .inr ⟨by simp, rfl⟩

theorem settles_expect (wanted : Token) :
    Settles stop stop' us (expect wanted) (expect wanted) ts := by
  refine settles_current_bind fun t p hhead => ?_
  dsimp only
  split
  · exact settles_skip
  · exact settles_refuse _ hhead

/-! ## Runs -/

/-- A run that ends before the end of the tokens ends there in a longer text. -/
theorem CutsRun.extend {f : α → Token} {run : List (Located Token) → List α × List (Located Token)}
    (h : CutsRun f run) (hrest : (run ts).2 ≠ []) (us : List (Located Token)) :
    run (ts ++ us) = ((run ts).1, (run ts).2 ++ us) := by
  obtain ⟨vs, hts, hmap, hnext⟩ := h.split ts
  have hnext' : ∀ a, Grammar.nextToken ((run ts).2 ++ us) ≠ f a := by
    rwa [Grammar.nextToken_append hrest]
  have happend := h.append hnext' hmap
  rwa [← List.append_assoc, ← hts] at happend

/-- With further tokens behind it a run can only get longer. -/
theorem CutsRun.prefix_append {f : α → Token}
    {run : List (Located Token) → List α × List (Located Token)} (h : CutsRun f run)
    (ts us : List (Located Token)) : (run ts).1 <+: (run (ts ++ us)).1 := by
  by_cases hrest : (run ts).2 = []
  · obtain ⟨vs, hts, hmap, -⟩ := h.split ts
    rw [hrest, List.append_nil] at hts
    obtain ⟨ws, hus, hmore, hnext⟩ := h.split us
    have hwhole : run ((vs ++ ws) ++ (run us).2) = ((run ts).1 ++ (run us).1, (run us).2) :=
      h.append hnext (by rw [List.map_append, List.map_append, hmap, hmore])
    rw [List.append_assoc, ← hus, ← hts] at hwhole
    rw [hwhole]
    exact List.prefix_append _ _
  · exact ⟨[], by rw [List.append_nil, h.extend hrest us]⟩

theorem settles_name (role : NameRole) : Settles stop stop' us (name role) (name role) ts := by
  cases ts with
  | nil => exact .inl rfl
  | cons t ts =>
      by_cases hrest : (symbolRun (t :: ts)).2 = []
      · left
        rw [name]
        split
        · next hrun =>
          obtain ⟨vs, hts, hmap, -⟩ := cutsRun_symbolRun.split (t :: ts)
          rw [hrun] at hmap hrest hts
          dsimp only at hrest
          rw [hrest, List.map_eq_nil_iff.mp hmap] at hts
          cases hts
        · next hrun =>
          rw [hrun] at hrest
          exact hrest
      · refine .inr ⟨by simp, ?_⟩
        rw [name, name, cutsRun_symbolRun.extend hrest us]
        cases hrun : symbolRun (t :: ts) with
        | mk units rest => cases units <;> rfl

theorem decimalValue_le_of_isPrefix {digits more : List Nat} (h : digits <+: more) :
    decimalValue digits ≤ decimalValue more := by
  obtain ⟨behind, rfl⟩ := h
  rw [decimalValue, decimalValue, List.foldl_append]
  exact le_foldl_digits behind _

/-- A number that is too large is so in a longer text, and is refused at the same
place, its first digit. -/
theorem settles_number (limit : Nat) :
    Settles stop stop' us (number limit) (number limit) ts := by
  cases ts with
  | nil => exact .inl rfl
  | cons t ts =>
      by_cases hlimit : decimalValue (digitRun (t :: ts)).1 ≤ min limit offsetLimit
      · by_cases hrest : (digitRun (t :: ts)).2 = []
        · left
          simp only [number_apply, hlimit, if_true]
          exact hrest
        · refine .inr ⟨by simp, ?_⟩
          simp only [number_apply, cutsRun_digitRun.extend hrest us, hlimit, if_true,
            Outcome.extend]
      · refine .inr ⟨by simp, ?_⟩
        have hlonger : ¬decimalValue (digitRun (t :: ts ++ us)).1 ≤ min limit offsetLimit := by
          have hle := decimalValue_le_of_isPrefix (cutsRun_digitRun.prefix_append (t :: ts) us)
          omega
        simp only [number_apply, hlimit, hlonger, if_false, Outcome.extend]
        rfl

end Reading

namespace Grammar

open Reading

variable {stop stop' : Position} {us : List (Located Token)}

/-! ## Expressions -/

theorem settles_index (ts : List (Located Token)) : Settles stop stop' us index index ts := by
  refine settles_current_bind fun t p _ => ?_
  refine settles_bind settles_skip fun _ ts₁ _ => ?_
  refine settles_current_bind fun t₁ p₁ hhead => ?_
  dsimp only
  split
  · exact settles_bind (settles_number _) fun _ _ _ => settles_pure _
  · exact settles_refuse _ hhead

mutual
theorem settles_operandWithin : ∀ (bound bound' : Nat) (g : Bool) (ts : List (Located Token)),
    bound ≤ bound' → Settles stop stop' us (operandWithin bound g) (operandWithin bound' g) ts
  | 0, _, _, _, _ => settles_unfinished _
  | bound + 1, 0, _, _, h => by omega
  | bound + 1, bound' + 1, g, ts, h => by
      refine settles_current_bind fun t p hhead => ?_
      dsimp only
      split
      · refine settles_bind settles_skip fun _ ts₁ _ => ?_
        refine settles_bind (settles_expressionWithin bound bound' true ts₁ (by omega))
          fun _ ts₂ _ => ?_
        exact settles_bind (settles_expect _) fun _ _ _ => settles_pure _
      · refine settles_bind settles_skip fun _ ts₁ _ => ?_
        refine settles_bind (settles_name _) fun _ ts₂ _ => ?_
        refine settles_bind (settles_expect _) fun _ ts₃ _ => ?_
        refine settles_bind (settles_itemsWithin bound bound' g _ ts₃ (by omega))
          fun _ ts₄ _ => ?_
        exact settles_bind (settles_expect _) fun _ _ _ => settles_pure _
      · exact settles_bind (settles_number _) fun _ _ _ => settles_pure _
      · exact settles_bind settles_skip fun _ _ _ => settles_pure _
      · exact settles_bind settles_skip fun _ _ _ => settles_pure _
      · refine settles_bind settles_skip fun _ ts₁ _ => ?_
        refine settles_bind (settles_itemsWithin bound bound' g _ ts₁ (by omega))
          fun _ ts₂ _ => ?_
        exact settles_bind (settles_expect _) fun _ _ _ => settles_pure _
      · refine settles_bind (settles_name _) fun callee ts₁ _ => ?_
        refine settles_current_bind fun t₁ p₁ _ => ?_
        dsimp only
        split
        · refine settles_bind settles_skip fun _ ts₂ _ => ?_
          refine settles_bind (settles_itemsWithin bound bound' g _ ts₂ (by omega))
            fun _ ts₃ _ => ?_
          exact settles_bind (settles_expect _) fun _ _ _ => settles_pure _
        · exact settles_pure _
      · exact settles_refuse _ hhead
theorem settles_chainWithin : ∀ (bound bound' : Nat) (g : Bool) (left : Node)
    (ts : List (Located Token)), bound ≤ bound' →
    Settles stop stop' us (chainWithin bound g left) (chainWithin bound' g left) ts
  | 0, _, _, _, _, _ => settles_unfinished _
  | bound + 1, 0, _, _, _, h => by omega
  | bound + 1, bound' + 1, g, left, ts, h => by
      refine settles_current_bind fun t p hhead => ?_
      dsimp only
      split
      · next op =>
        obtain ⟨ts, rfl⟩ := eq_cons_of_head hhead (by simp)
        -- The operator is not the last token, or else all that follows is at the end.
        have hbehind : ∀ next, Settles stop stop' us
            (if op = .not ∧ negatesLeft g next = true then
              chainWithin bound g (.expression ⟨left, some op, none, false, p⟩ p)
            else operandWithin bound g >>= fun right =>
              chainWithin bound g (.expression ⟨left, some op, some right, false, p⟩ p))
            (if op = .not ∧ negatesLeft g next = true then
              chainWithin bound' g (.expression ⟨left, some op, none, false, p⟩ p)
            else operandWithin bound' g >>= fun right =>
              chainWithin bound' g (.expression ⟨left, some op, some right, false, p⟩ p)) ts := by
          intro next
          split
          · exact settles_chainWithin bound bound' g _ ts (by omega)
          · refine settles_bind (settles_operandWithin bound bound' g ts (by omega))
              fun right ts₁ _ => ?_
            exact settles_chainWithin bound bound' g _ ts₁ (by omega)
        rcases hbehind (head stop ts).value with hend | ⟨hne, hlonger⟩
        · exact .inl hend
        · refine .inr ⟨by simp, ?_⟩
          obtain ⟨t, ts, rfl⟩ := List.exists_cons_of_ne_nil hne
          exact hlonger
      · exact settles_pure _
theorem settles_expressionWithin : ∀ (bound bound' : Nat) (g : Bool)
    (ts : List (Located Token)), bound ≤ bound' →
    Settles stop stop' us (expressionWithin bound g) (expressionWithin bound' g) ts
  | 0, _, _, _, _ => settles_unfinished _
  | bound + 1, 0, _, _, h => by omega
  | bound + 1, bound' + 1, g, ts, h => by
      refine settles_current_bind fun t p _ => ?_
      dsimp only
      split
      · exact settles_index ts
      · refine settles_bind (settles_operandWithin bound bound' g ts (by omega))
          fun left ts₁ _ => ?_
        exact settles_chainWithin bound bound' g left ts₁ (by omega)
theorem settles_itemsWithin : ∀ (bound bound' : Nat) (g : Bool) (close : Token)
    (ts : List (Located Token)), bound ≤ bound' →
    Settles stop stop' us (itemsWithin bound g close) (itemsWithin bound' g close) ts
  | 0, _, _, _, _, _ => settles_unfinished _
  | bound + 1, 0, _, _, _, h => by omega
  | bound + 1, bound' + 1, g, close, ts, h => by
      refine settles_current_bind fun t p _ => ?_
      dsimp only
      split
      · exact settles_pure _
      · split
        · refine settles_bind settles_skip fun _ ts₁ _ => ?_
          exact settles_itemsWithin bound bound' g close ts₁ (by omega)
        · refine settles_bind (settles_expressionWithin bound bound' g ts (by omega))
            fun _ ts₁ _ => ?_
          refine settles_bind (settles_itemsWithin bound bound' g close ts₁ (by omega))
            fun _ ts₂ _ => ?_
          exact settles_pure _
end

theorem settles_operand (ts : List (Located Token)) : Settles stop stop' us operand operand ts :=
  settles_operandWithin (expressionBound ts) (expressionBound (ts ++ us)) false ts
    (by simp only [expressionBound, List.length_append]; omega)

theorem settles_expression (ts : List (Located Token)) :
    Settles stop stop' us expression expression ts :=
  settles_expressionWithin (expressionBound ts) (expressionBound (ts ++ us)) false ts
    (by simp only [expressionBound, List.length_append]; omega)

/-! ## Statements -/

theorem settles_parametersWithin : ∀ (bound bound' : Nat) (ts : List (Located Token)),
    bound ≤ bound' → Settles stop stop' us (parametersWithin bound) (parametersWithin bound') ts
  | 0, _, _, _ => settles_unfinished _
  | bound + 1, 0, _, h => by omega
  | bound + 1, bound' + 1, ts, h => by
      refine settles_current_bind fun t p _ => ?_
      dsimp only
      split
      · refine settles_bind settles_skip fun _ ts₁ _ => ?_
        refine settles_bind (settles_name _) fun _ ts₂ _ => ?_
        refine settles_bind (settles_parametersWithin bound bound' ts₂ (by omega))
          fun _ ts₃ _ => ?_
        exact settles_pure _
      · exact settles_pure _

mutual
theorem settles_statementWithin : ∀ (bound bound' : Nat) (ts : List (Located Token)),
    bound ≤ bound' → Settles stop stop' us (statementWithin bound) (statementWithin bound') ts
  | 0, _, _, _ => settles_unfinished _
  | bound + 1, 0, _, h => by omega
  | bound + 1, bound' + 1, ts, h => by
      have hblock : ∀ (closing : List Token) (ts : List (Located Token)),
          Settles stop stop' us (blockWithin bound closing) (blockWithin bound' closing) ts :=
        fun closing ts => settles_blockWithin bound bound' closing ts (by omega)
      refine settles_current_bind fun t p hhead => ?_
      dsimp only
      split
      · refine settles_bind settles_skip fun _ ts₁ _ => ?_
        refine settles_bind (settles_name _) fun _ ts₂ _ => ?_
        refine settles_bind (settles_expect _) fun _ ts₃ _ => ?_
        exact settles_bind (settles_expression ts₃) fun _ _ _ => settles_pure _
      · refine settles_bind settles_skip fun _ ts₁ _ => ?_
        refine settles_bind (settles_name _) fun _ ts₂ _ => ?_
        refine settles_bind (settles_expect _) fun _ ts₃ _ => ?_
        exact settles_bind (settles_expression ts₃) fun _ _ _ => settles_pure _
      · refine settles_bind settles_skip fun _ ts₁ _ => ?_
        refine settles_bind (settles_expression ts₁) fun _ ts₂ _ => ?_
        refine settles_bind (settles_expect _) fun _ ts₃ _ => ?_
        refine settles_bind (hblock _ ts₃) fun _ ts₄ _ => ?_
        refine settles_current_bind fun t p _ => ?_
        dsimp only
        split
        · refine settles_bind settles_skip fun _ ts₅ _ => ?_
          refine settles_bind (hblock _ ts₅) fun _ ts₆ _ => ?_
          exact settles_bind (settles_expect _) fun _ _ _ => settles_pure _
        · exact settles_bind (settles_expect _) fun _ _ _ => settles_pure _
      · refine settles_bind settles_skip fun _ ts₁ _ => ?_
        refine settles_bind (settles_expression ts₁) fun _ ts₂ _ => ?_
        refine settles_bind (settles_expect _) fun _ ts₃ _ => ?_
        refine settles_bind (hblock _ ts₃) fun _ ts₄ _ => ?_
        exact settles_bind (settles_expect _) fun _ _ _ => settles_pure _
      · refine settles_bind settles_skip fun _ ts₁ _ => ?_
        refine settles_bind (settles_name _) fun _ ts₂ _ => ?_
        refine settles_bind (settles_parametersWithin bound bound' ts₂ (by omega))
          fun _ ts₃ _ => ?_
        refine settles_bind (settles_expect _) fun _ ts₄ _ => ?_
        refine settles_bind (hblock _ ts₄) fun _ ts₅ _ => ?_
        exact settles_bind (settles_expect _) fun _ _ _ => settles_pure _
      · refine settles_bind settles_skip fun _ ts₁ _ => ?_
        exact settles_bind (settles_expression ts₁) fun _ _ _ => settles_pure _
      · exact settles_operand ts
      iterate 7 · exact settles_refuse _ hhead
      · exact settles_expression ts
theorem settles_blockWithin : ∀ (bound bound' : Nat) (closing : List Token)
    (ts : List (Located Token)), bound ≤ bound' →
    Settles stop stop' us (blockWithin bound closing) (blockWithin bound' closing) ts
  | 0, _, _, _, _ => settles_unfinished _
  | bound + 1, 0, _, _, h => by omega
  | bound + 1, bound' + 1, closing, ts, h => by
      refine settles_current_bind fun t p _ => ?_
      dsimp only
      split
      · exact settles_pure _
      · refine settles_bind (settles_statementWithin bound bound' ts (by omega))
          fun _ ts₁ _ => ?_
        refine settles_bind (settles_blockWithin bound bound' closing ts₁ (by omega))
          fun _ ts₂ _ => ?_
        exact settles_pure _
end

/-- An error before the end of the text is reported in every longer text. -/
theorem statements_append_eq_failed {ts : List (Located Token)} {e : SyntaxError}
    (h : statements stop ts = .failed e) (he : e.position ≠ stop) (us : List (Located Token))
    (stop' : Position) : statements stop' (ts ++ us) = .failed e := by
  have hbound : blockBound ts ≤ blockBound (ts ++ us) := by
    simp only [blockBound, List.length_append]
    omega
  have hsettles : Settles stop stop' us (blockWithin (blockBound ts) [])
      (blockWithin (blockBound (ts ++ us)) []) ts :=
    settles_blockWithin _ _ [] ts hbound
  rw [Settles, show blockWithin (blockBound ts) [] stop ts = .failed e from h] at hsettles
  rcases hsettles with hend | ⟨-, hlonger⟩
  · exact absurd hend he
  · exact hlonger

end Grammar

end Pictoscript
