import Pictoscript.Grammar.Statement

/-! # Progress

Every reader of the grammar consumes a token or fails, apart from the lists,
which may be empty. So the bounds that the readers are started with are never
used up, and reading a text always ends in a tree or in an error.
-/

namespace Pictoscript

/-- The outcome is reached and, if it is a success, fewer than `n` tokens are
left over. -/
def Outcome.Leaves {α : Type} (n : Nat) : Outcome α → Prop
  | .done _ rest => rest.length < n
  | .failed _ => True
  | .unfinished => False

theorem Outcome.Leaves.mono {α : Type} {m n : Nat} {o : Outcome α} (h : o.Leaves m)
    (hmn : m ≤ n) : o.Leaves n := by
  cases o with
  | done a rest => exact Nat.lt_of_lt_of_le h hmn
  | failed e => trivial
  | unfinished => exact h

theorem Outcome.Leaves.ne_unfinished {α : Type} {n : Nat} {o : Outcome α}
    (h : o.Leaves n) : o ≠ .unfinished := by
  rintro rfl
  exact h

namespace Reading

variable {α β : Type} {stop : Position} {ts : List (Located Token)} {n : Nat}

/-! ## Combining readings -/

theorem leaves_bind {r : Reading α} {f : α → Reading β} {m : Nat} (h : (r stop ts).Leaves m)
    (hf : ∀ a rest, rest.length < m → (f a stop rest).Leaves n) :
    ((r >>= f) stop ts).Leaves n := by
  rw [bind_apply]
  cases hr : r stop ts with
  | done a rest => rw [hr] at h; exact hf a rest h
  | failed e => trivial
  | unfinished => rw [hr] at h; exact h

theorem leaves_pure {a : α} (h : ts.length < n) : ((pure a : Reading α) stop ts).Leaves n := h

theorem leaves_refuse (f : Fault) (p : Position) :
    ((refuse f p : Reading α) stop ts).Leaves n := trivial

/-- Looking at the first token consumes nothing. -/
theorem leaves_current_bind {f : Located Token → Reading β}
    (h : ∀ t p, head stop ts = ⟨t, p⟩ → (f ⟨t, p⟩ stop ts).Leaves n) :
    ((current >>= f) stop ts).Leaves n := h _ _ rfl

theorem leaves_following_bind {f : Token → Reading β}
    (h : (f (head stop ts.tail).value stop ts).Leaves n) :
    ((following >>= f) stop ts).Leaves n := h

/-- A list whose first token is not the end has a first token. -/
theorem length_pos_of_head {t : Token} {p : Position} (h : head stop ts = ⟨t, p⟩)
    (ht : t ≠ .endOfInput) : 0 < ts.length := by
  cases ts with
  | nil => cases h; exact absurd rfl ht
  | cons t ts => exact Nat.succ_pos _

theorem leaves_skip (h : 0 < ts.length) : (skip stop ts).Leaves ts.length := by
  show ts.tail.length < ts.length
  rw [List.length_tail]
  omega

theorem leaves_expect {wanted : Token} (h : wanted ≠ .endOfInput) :
    (expect wanted stop ts).Leaves ts.length := by
  refine leaves_current_bind fun token p ht => ?_
  dsimp only
  split
  · next heq => exact leaves_skip (length_pos_of_head (heq ▸ ht) h)
  · exact leaves_refuse _ _

/-! ## Runs -/

theorem length_symbolRun (ts : List (Located Token)) :
    (symbolRun ts).1.length + (symbolRun ts).2.length = ts.length := by
  fun_induction symbolRun ts with
  | case1 unit p ts units rest h ih =>
    rw [h] at ih
    simp only [List.length_cons] at ih ⊢
    omega
  | case2 => simp

theorem length_digitRun (ts : List (Located Token)) :
    (digitRun ts).1.length + (digitRun ts).2.length = ts.length := by
  fun_induction digitRun ts with
  | case1 value p ts values rest h ih =>
    rw [h] at ih
    simp only [List.length_cons] at ih ⊢
    omega
  | case2 => simp

theorem leaves_name (role : NameRole) : (name role stop ts).Leaves ts.length := by
  have hlen := length_symbolRun ts
  rw [name]
  split
  · trivial
  · next unit units rest hrun =>
    rw [hrun] at hlen
    simp only [List.length_cons] at hlen
    show rest.length < ts.length
    omega

theorem leaves_number {limit d : Nat} {p : Position} (h : head stop ts = ⟨.digit d, p⟩) :
    (number limit stop ts).Leaves ts.length := by
  cases ts with
  | nil => cases h
  | cons t rest =>
    cases h
    have hlen := length_digitRun rest
    rw [number_apply, digitRun]
    dsimp only
    split
    · show (digitRun rest).2.length < rest.length + 1
      omega
    · trivial

end Reading

namespace Grammar

open Reading

variable {stop : Position}

theorem leaves_index {ts : List (Located Token)} {p : Position}
    (h : head stop ts = ⟨.index, p⟩) :
    (index stop ts).Leaves ts.length := by
  refine leaves_current_bind fun token p ht => ?_
  dsimp only
  apply leaves_bind (leaves_skip (length_pos_of_head h (by decide)))
  intro _ rest hrest
  refine leaves_current_bind fun token p ht => ?_
  dsimp only
  split
  · next =>
    exact leaves_bind (leaves_number ht) fun _ _ h => leaves_pure (by omega)
  · exact leaves_refuse _ _

/-! ## Expressions -/

mutual
theorem leaves_operandWithin : ∀ (bound : Nat) (inGroup : Bool) (ts : List (Located Token)),
    3 * ts.length + 1 ≤ bound → (operandWithin bound inGroup stop ts).Leaves ts.length
  | 0, _, _, h => by omega
  | bound + 1, inGroup, ts, h => by
    refine leaves_current_bind fun token p ht => ?_
    dsimp only
    split
    · next =>
      have hpos := length_pos_of_head ht (by decide)
      refine leaves_bind (leaves_skip hpos) fun _ ts₁ h₁ => ?_
      refine leaves_bind (leaves_expressionWithin bound true ts₁ (by omega)) fun _ ts₂ h₂ => ?_
      exact leaves_bind (leaves_expect (by decide)) fun _ _ h => leaves_pure (by omega)
    · next =>
      have hpos := length_pos_of_head ht (by decide)
      refine leaves_bind (leaves_skip hpos) fun _ ts₁ h₁ => ?_
      refine leaves_bind (leaves_name _) fun _ ts₂ h₂ => ?_
      refine leaves_bind (leaves_expect (by decide)) fun _ ts₃ h₃ => ?_
      refine leaves_bind (leaves_itemsWithin bound inGroup _ ts₃ (by omega)) fun _ ts₄ h₄ => ?_
      exact leaves_bind (leaves_expect (by decide)) fun _ _ h => leaves_pure (by omega)
    · next => exact leaves_bind (leaves_number ht) fun _ _ h => leaves_pure h
    · next =>
      have hpos := length_pos_of_head ht (by simp)
      exact leaves_bind (leaves_skip hpos) fun _ _ h => leaves_pure h
    · next =>
      have hpos := length_pos_of_head ht (by simp)
      exact leaves_bind (leaves_skip hpos) fun _ _ h => leaves_pure h
    · next =>
      have hpos := length_pos_of_head ht (by decide)
      refine leaves_bind (leaves_skip hpos) fun _ ts₁ h₁ => ?_
      refine leaves_bind (leaves_itemsWithin bound inGroup _ ts₁ (by omega)) fun _ ts₂ h₂ => ?_
      exact leaves_bind (leaves_expect (by decide)) fun _ _ h => leaves_pure (by omega)
    · refine leaves_bind (leaves_name _) fun callee ts₁ h₁ => ?_
      refine leaves_current_bind fun token p ht => ?_
      dsimp only
      split
      · next heq =>
        have hpos := length_pos_of_head (heq ▸ ht) (by decide)
        refine leaves_bind (leaves_skip hpos) fun _ ts₂ h₂ => ?_
        refine leaves_bind (leaves_itemsWithin bound inGroup _ ts₂ (by omega)) fun _ ts₃ h₃ => ?_
        exact leaves_bind (leaves_expect (by decide)) fun _ _ h => leaves_pure (by omega)
      · exact leaves_pure h₁
    · exact leaves_refuse _ _
theorem leaves_chainWithin : ∀ (bound : Nat) (inGroup : Bool) (left : Node)
    (ts : List (Located Token)), 3 * ts.length + 1 ≤ bound →
    (chainWithin bound inGroup left stop ts).Leaves (ts.length + 1)
  | 0, _, _, _, h => by omega
  | bound + 1, inGroup, left, ts, h => by
    refine leaves_current_bind fun token p ht => ?_
    dsimp only
    split
    · next =>
      have hpos := length_pos_of_head ht (by simp)
      apply leaves_following_bind
      refine leaves_bind (leaves_skip hpos) fun _ ts₁ h₁ => ?_
      split
      · exact (leaves_chainWithin bound inGroup _ ts₁ (by omega)).mono (by omega)
      · refine leaves_bind (leaves_operandWithin bound inGroup ts₁ (by omega)) fun _ ts₂ h₂ => ?_
        exact (leaves_chainWithin bound inGroup _ ts₂ (by omega)).mono (by omega)
    · exact leaves_pure (Nat.lt_succ_self _)
theorem leaves_expressionWithin : ∀ (bound : Nat) (inGroup : Bool)
    (ts : List (Located Token)), 3 * ts.length + 2 ≤ bound →
    (expressionWithin bound inGroup stop ts).Leaves ts.length
  | 0, _, _, h => by omega
  | bound + 1, inGroup, ts, h => by
    refine leaves_current_bind fun token p ht => ?_
    dsimp only
    split
    · next hi => exact leaves_index (hi ▸ ht)
    · refine leaves_bind (leaves_operandWithin bound inGroup ts (by omega)) fun _ ts₁ h₁ => ?_
      exact (leaves_chainWithin bound inGroup _ ts₁ (by omega)).mono (by omega)
theorem leaves_itemsWithin : ∀ (bound : Nat) (inGroup : Bool) (close : Token)
    (ts : List (Located Token)), 3 * ts.length + 3 ≤ bound →
    (itemsWithin bound inGroup close stop ts).Leaves (ts.length + 1)
  | 0, _, _, _, h => by omega
  | bound + 1, inGroup, close, ts, h => by
    refine leaves_current_bind fun token p ht => ?_
    dsimp only
    split
    · exact leaves_pure (Nat.lt_succ_self _)
    · split
      · next heq =>
        have hpos := length_pos_of_head (heq ▸ ht) (by decide)
        refine leaves_bind (leaves_skip hpos) fun _ ts₁ h₁ => ?_
        exact (leaves_itemsWithin bound inGroup close ts₁ (by omega)).mono (by omega)
      · refine leaves_bind (leaves_expressionWithin bound inGroup ts (by omega)) fun _ ts₁ h₁ => ?_
        refine leaves_bind (leaves_itemsWithin bound inGroup close ts₁ (by omega)) fun _ ts₂ h₂ => ?_
        exact leaves_pure (by omega)
end

theorem leaves_operand (ts : List (Located Token)) : (operand stop ts).Leaves ts.length :=
  leaves_operandWithin _ _ ts (by unfold expressionBound; omega)

theorem leaves_expression (ts : List (Located Token)) :
    (expression stop ts).Leaves ts.length :=
  leaves_expressionWithin _ _ ts (by unfold expressionBound; omega)

/-! ## Statements -/

theorem leaves_parametersWithin : ∀ (bound : Nat) (ts : List (Located Token)),
    ts.length + 1 ≤ bound → (parametersWithin bound stop ts).Leaves (ts.length + 1)
  | 0, _, h => by omega
  | bound + 1, ts, h => by
    refine leaves_current_bind fun token p ht => ?_
    dsimp only
    split
    · next heq =>
      have hpos := length_pos_of_head (heq ▸ ht) (by decide)
      refine leaves_bind (leaves_skip hpos) fun _ ts₁ h₁ => ?_
      refine leaves_bind (leaves_name _) fun _ ts₂ h₂ => ?_
      refine leaves_bind (leaves_parametersWithin bound ts₂ (by omega)) fun _ ts₃ h₃ => ?_
      exact leaves_pure (by omega)
    · exact leaves_pure (Nat.lt_succ_self _)

mutual
theorem leaves_statementWithin : ∀ (bound : Nat) (ts : List (Located Token)),
    2 * ts.length + 1 ≤ bound → (statementWithin bound stop ts).Leaves ts.length
  | 0, _, h => by omega
  | bound + 1, ts, h => by
    refine leaves_current_bind fun token p ht => ?_
    dsimp only
    split
    · next =>
      have hpos := length_pos_of_head ht (by decide)
      refine leaves_bind (leaves_skip hpos) fun _ ts₁ h₁ => ?_
      refine leaves_bind (leaves_name _) fun _ ts₂ h₂ => ?_
      refine leaves_bind (leaves_expect (by decide)) fun _ ts₃ h₃ => ?_
      exact leaves_bind (leaves_expression ts₃) fun _ _ h => leaves_pure (by omega)
    · next =>
      have hpos := length_pos_of_head ht (by decide)
      refine leaves_bind (leaves_skip hpos) fun _ ts₁ h₁ => ?_
      refine leaves_bind (leaves_name _) fun _ ts₂ h₂ => ?_
      refine leaves_bind (leaves_expect (by decide)) fun _ ts₃ h₃ => ?_
      exact leaves_bind (leaves_expression ts₃) fun _ _ h => leaves_pure (by omega)
    · next =>
      have hpos := length_pos_of_head ht (by decide)
      refine leaves_bind (leaves_skip hpos) fun _ ts₁ h₁ => ?_
      refine leaves_bind (leaves_expression ts₁) fun _ ts₂ h₂ => ?_
      refine leaves_bind (leaves_expect (by decide)) fun _ ts₃ h₃ => ?_
      refine leaves_bind (leaves_blockWithin bound _ ts₃ (by omega)) fun _ ts₄ h₄ => ?_
      refine leaves_current_bind fun token p ht => ?_
      dsimp only
      split
      · next heq =>
        have hpos := length_pos_of_head (heq ▸ ht) (by decide)
        refine leaves_bind (leaves_skip hpos) fun _ ts₅ h₅ => ?_
        refine leaves_bind (leaves_blockWithin bound _ ts₅ (by omega)) fun _ ts₆ h₆ => ?_
        exact leaves_bind (leaves_expect (by decide)) fun _ _ h => leaves_pure (by omega)
      · exact leaves_bind (leaves_expect (by decide)) fun _ _ h => leaves_pure (by omega)
    · next =>
      have hpos := length_pos_of_head ht (by decide)
      refine leaves_bind (leaves_skip hpos) fun _ ts₁ h₁ => ?_
      refine leaves_bind (leaves_expression ts₁) fun _ ts₂ h₂ => ?_
      refine leaves_bind (leaves_expect (by decide)) fun _ ts₃ h₃ => ?_
      refine leaves_bind (leaves_blockWithin bound _ ts₃ (by omega)) fun _ ts₄ h₄ => ?_
      exact leaves_bind (leaves_expect (by decide)) fun _ _ h => leaves_pure (by omega)
    · next =>
      have hpos := length_pos_of_head ht (by decide)
      refine leaves_bind (leaves_skip hpos) fun _ ts₁ h₁ => ?_
      refine leaves_bind (leaves_name _) fun _ ts₂ h₂ => ?_
      refine leaves_bind (leaves_parametersWithin bound ts₂ (by omega)) fun _ ts₃ h₃ => ?_
      refine leaves_bind (leaves_expect (by decide)) fun _ ts₄ h₄ => ?_
      refine leaves_bind (leaves_blockWithin bound _ ts₄ (by omega)) fun _ ts₅ h₅ => ?_
      exact leaves_bind (leaves_expect (by decide)) fun _ _ h => leaves_pure (by omega)
    · next =>
      have hpos := length_pos_of_head ht (by decide)
      refine leaves_bind (leaves_skip hpos) fun _ ts₁ h₁ => ?_
      exact leaves_bind (leaves_expression ts₁) fun _ _ h => leaves_pure (by omega)
    · exact leaves_operand ts
    iterate 7 · exact leaves_refuse _ _
    · exact leaves_expression ts
theorem leaves_blockWithin : ∀ (bound : Nat) (closing : List Token)
    (ts : List (Located Token)), 2 * ts.length + 2 ≤ bound →
    (blockWithin bound closing stop ts).Leaves (ts.length + 1)
  | 0, _, _, h => by omega
  | bound + 1, closing, ts, h => by
    refine leaves_current_bind fun token p ht => ?_
    dsimp only
    split
    · exact leaves_pure (Nat.lt_succ_self _)
    · refine leaves_bind (leaves_statementWithin bound ts (by omega)) fun _ ts₁ h₁ => ?_
      refine leaves_bind (leaves_blockWithin bound closing ts₁ (by omega)) fun _ ts₂ h₂ => ?_
      exact leaves_pure (by omega)
end

/-- Reading the statements of a text ends, whatever the tokens are. -/
theorem statements_ne_unfinished (stop : Position) (ts : List (Located Token)) :
    statements stop ts ≠ .unfinished :=
  (leaves_blockWithin _ _ ts (Nat.le_refl _)).ne_unfinished

end Grammar

end Pictoscript
