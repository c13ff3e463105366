import Mathlib.Data.Prod.Lex
import Pictoscript.Proofs.Lexing

/-! # Where tokens stand

Facts about the positions of tokens. Moving through a text only ever moves a
position forward, so the tokens of a text stand in the order of their positions,
no two at the same place, and all of them before the end. A text that begins on
another line is cut into the same tokens, each moved by as many lines.
-/

namespace Pictoscript

/-! ## The order of positions -/

namespace Position

/-- Positions are ordered as they come in a text: by line, then by column. -/
instance : LinearOrder Position :=
  LinearOrder.lift' (fun p => toLex (p.line, p.column)) fun p q h => by
    cases p
    cases q
    simpa using h

theorem lt_iff {p q : Position} :
    p < q ↔ p.line < q.line ∨ p.line = q.line ∧ p.column < q.column :=
  Prod.Lex.toLex_lt_toLex

theorem lt_advance (p : Position) (c : Char) : p < p.advance c := by
  by_cases hc : c = '\n'
  · subst hc
    exact lt_iff.mpr (.inl (Nat.lt_succ_self _))
  · rw [advance_of_ne hc]
    exact lt_iff.mpr (.inr ⟨rfl, Nat.lt_succ_self _⟩)

/-- Characters move a position forward. -/
theorem le_foldl_advance (cs : List Char) (p : Position) : p ≤ cs.foldl advance p := by
  induction cs generalizing p with
  | nil => exact le_refl p
  | cons c cs ih => exact (lt_advance p c).le.trans (ih (p.advance c))

theorem lt_foldl_advance {cs : List Char} (h : cs ≠ []) (p : Position) :
    p < cs.foldl advance p := by
  obtain ⟨c, cs, rfl⟩ := List.exists_cons_of_ne_nil h
  exact (lt_advance p c).trans_le (le_foldl_advance cs (p.advance c))

/-- The line of a position behind some characters. -/
theorem line_foldl_advance (cs : List Char) (p : Position) :
    (cs.foldl advance p).line = p.line + cs.count '\n' := by
  induction cs generalizing p with
  | nil => rfl
  | cons c cs ih =>
      rw [List.foldl_cons, ih]
      by_cases hc : c = '\n'
      · subst hc
        rw [advance_newline, List.count_cons_self]
        exact Nat.add_right_comm p.line 1 (cs.count '\n')
      · rw [advance_of_ne hc, List.count_cons_of_ne hc]

def down (lines : Nat) (p : Position) : Position := ⟨p.line + lines, p.column⟩

theorem advance_down (lines : Nat) (p : Position) (c : Char) :
    (p.down lines).advance c = (p.advance c).down lines := by
  by_cases hc : c = '\n'
  · subst hc
    simp only [advance_newline, down, Position.mk.injEq, and_true]
    omega
  · rw [advance_of_ne hc, advance_of_ne hc]
    rfl

theorem foldl_advance_down (lines : Nat) (cs : List Char) (p : Position) :
    cs.foldl advance (p.down lines) = (cs.foldl advance p).down lines := by
  induction cs generalizing p with
  | nil => rfl
  | cons c cs ih => rw [List.foldl_cons, List.foldl_cons, advance_down, ih]

end Position

namespace Cursor

/-! ## Units -/

/-- A run that was passed over is not there any more. -/
theorem skip_skip (p : Char → Bool) (k : Cursor) : (k.skip p).skip p = k.skip p := by
  unfold skip
  cases hdrop : k.rest.dropWhile p with
  | nil => rfl
  | cons c cs =>
      have hc : p c = false := by
        have hnot := List.head?_dropWhile_not p k.rest
        rw [hdrop] at hnot
        simpa using hnot
      simp [hc]

/-- A unit stands behind the blanks, and the cursor behind it has passed it. -/
theorem unit?_eq_some_iff {k after : Cursor} {u : Located (List Char)} :
    k.unit? = some (u, after) ↔
      u.value = k.skipBlanks.rest.takeWhile (fun c => !isBlank c) ∧ u.value ≠ [] ∧
        u.position = k.skipBlanks.position ∧
        after = k.skipBlanks.skip (fun c => !isBlank c) := by
  obtain ⟨value, p⟩ := u
  rw [unit?]
  split
  · next hnil =>
    rw [hnil]
    simp only [reduceCtorEq, false_iff]
    rintro ⟨hempty, hne, -⟩
    exact hne hempty
  · next c cs hcons =>
    rw [hcons]
    simp only [Option.some.injEq, Prod.mk.injEq, Located.mk.injEq]
    constructor
    · rintro ⟨⟨rfl, rfl⟩, rfl⟩
      exact ⟨rfl, by simp, rfl, rfl⟩
    · rintro ⟨rfl, -, rfl, rfl⟩
      exact ⟨⟨rfl, rfl⟩, rfl⟩

/-- Without a further unit only blanks are left. -/
theorem rest_skipBlanks_of_unit?_none {k : Cursor} (h : k.unit? = none) :
    k.skipBlanks.rest = [] := by
  rw [unit?] at h
  split at h
  · next hnil =>
    cases hrest : k.skipBlanks.rest with
    | nil => rfl
    | cons c cs =>
        have hdrop : k.rest.dropWhile isBlank = c :: cs := hrest
        have hblank : isBlank c = false := by
          have hnot := List.head?_dropWhile_not isBlank k.rest
          rw [hdrop] at hnot
          simpa using hnot
        rw [hrest, List.takeWhile_cons_of_pos (by simp [hblank])] at hnil
        cases hnil
  · cases h

theorem next?_eq_none_iff {k : Cursor} : k.next? = none ↔ k.unit? = none := by
  rw [next?]
  split
  · next hnone => simp [hnone]
  · next u after hsome =>
    rw [hsome]
    split <;> split <;> simp

/-! ## The end of the text -/

/-- The position behind all characters still to come. -/
def finish (k : Cursor) : Position := k.rest.foldl Position.advance k.position

theorem finish_skip (p : Char → Bool) (k : Cursor) : (k.skip p).finish = k.finish := by
  rw [finish, finish, skip, ← List.foldl_append, List.takeWhile_append_dropWhile]

theorem finish_of_unit? {k after : Cursor} {u : Located (List Char)}
    (h : k.unit? = some (u, after)) : after.finish = k.finish := by
  obtain ⟨-, -, -, rfl⟩ := unit?_eq_some_iff.mp h
  rw [finish_skip, skipBlanks, finish_skip]

theorem finish_quotation_after (k : Cursor) : k.quotation.after.finish = k.finish := by
  fun_induction quotation k with
  | case1 k _ => exact finish_skip isBlank k
  | case2 k u after h _ => exact finish_of_unit? h
  | case3 k u after h _ q ih => exact ih.trans (finish_of_unit? h)

theorem finish_of_next? {k after : Cursor} {t : Located Token}
    (h : k.next? = some (t, after)) : after.finish = k.finish := by
  rw [next?] at h
  split at h
  · cases h
  · next u after' hu =>
    have hunit := finish_of_unit? hu
    split at h <;> split at h <;> cases h
    · exact (finish_quotation_after after').trans hunit
    all_goals exact hunit

/-- The tokens end where the text ends. -/
theorem stop_tokens (k : Cursor) : k.tokens.stop = k.finish := by
  fun_induction tokens k with
  | case1 k h =>
      have hrest := rest_skipBlanks_of_unit?_none (next?_eq_none_iff.mp h)
      rw [← finish_skip isBlank, ← skipBlanks, finish, hrest]
      rfl
  | case2 k t after h ts ih => exact ih.trans (finish_of_next? h)

/-! ## Tokens in order -/

theorem position_le_skip (p : Char → Bool) (k : Cursor) : k.position ≤ (k.skip p).position :=
  Position.le_foldl_advance _ _

theorem position_le_of_unit? {k after : Cursor} {u : Located (List Char)}
    (h : k.unit? = some (u, after)) : k.position ≤ u.position ∧ u.position < after.position := by
  obtain ⟨hvalue, hne, hposition, rfl⟩ := unit?_eq_some_iff.mp h
  rw [hposition]
  refine ⟨position_le_skip isBlank k, ?_⟩
  rw [skip, ← hvalue]
  exact Position.lt_foldl_advance hne _

theorem position_le_quotation_after (k : Cursor) : k.position ≤ k.quotation.after.position := by
  fun_induction quotation k with
  | case1 k _ => exact position_le_skip isBlank k
  | case2 k u after h _ =>
      obtain ⟨hle, hlt⟩ := position_le_of_unit? h
      exact hle.trans hlt.le
  | case3 k u after h _ q ih =>
      obtain ⟨hle, hlt⟩ := position_le_of_unit? h
      exact (hle.trans hlt.le).trans ih

/-- A token stands at the cursor or behind it, and the next cursor behind both. -/
theorem position_le_of_next? {k after : Cursor} {t : Located Token}
    (h : k.next? = some (t, after)) : k.position ≤ t.position ∧ t.position < after.position := by
  rw [next?] at h
  split at h
  · cases h
  · next u after' hu =>
    obtain ⟨hle, hlt⟩ := position_le_of_unit? hu
    split at h <;> split at h <;> cases h
    · exact ⟨hle, hlt.trans_le (position_le_quotation_after after')⟩
    all_goals exact ⟨hle, hlt⟩

theorem position_le_of_mem_tokens (k : Cursor) :
    ∀ t ∈ k.tokens.items, k.position ≤ t.position := by
  fun_induction tokens k with
  | case1 k h => simp
  | case2 k t after h ts ih =>
      obtain ⟨hle, hlt⟩ := position_le_of_next? h
      exact List.forall_mem_cons.mpr ⟨hle, fun s hs => (hle.trans hlt.le).trans (ih s hs)⟩

/-- The tokens of a text stand one behind the other. -/
theorem pairwise_tokens (k : Cursor) :
    k.tokens.items.Pairwise fun s t => s.position < t.position := by
  fun_induction tokens k with
  | case1 k h => exact .nil
  | case2 k t after h ts ih =>
      obtain ⟨-, hlt⟩ := position_le_of_next? h
      exact .cons (fun s hs => hlt.trans_le (position_le_of_mem_tokens after s hs)) ih

/-- All tokens stand before the end. -/
theorem position_lt_stop (k : Cursor) : ∀ t ∈ k.tokens.items, t.position < k.tokens.stop := by
  rw [stop_tokens]
  fun_induction tokens k with
  | case1 k h => simp
  | case2 k t after h ts ih =>
      obtain ⟨-, hlt⟩ := position_le_of_next? h
      have hend : t.position < after.finish :=
        hlt.trans_le (Position.le_foldl_advance after.rest after.position)
      rw [finish_of_next? h] at hend ih
      exact List.forall_mem_cons.mpr ⟨hend, ih⟩

end Cursor

theorem pairwise_tokenize (source : String) :
    (tokenize source).items.Pairwise fun s t => s.position < t.position := by
  rw [tokenize_eq]
  exact Cursor.pairwise_tokens _

theorem position_lt_stop_tokenize (source : String) :
    ∀ t ∈ (tokenize source).items, t.position < (tokenize source).stop := by
  rw [tokenize_eq]
  exact Cursor.position_lt_stop _

namespace Cursor

/-! ## Moving a text down -/

def down (lines : Nat) (k : Cursor) : Cursor := ⟨k.rest, k.position.down lines⟩

end Cursor

def Located.relocate {α : Type} (f : Position → Position) (v : Located α) : Located α :=
  ⟨v.value, f v.position⟩

namespace Cursor

variable (lines : Nat)

theorem skip_down (p : Char → Bool) (k : Cursor) :
    (k.down lines).skip p = (k.skip p).down lines := by
  rw [skip, skip, down, down, Position.foldl_advance_down]

theorem unit?_down (k : Cursor) :
    (k.down lines).unit? = k.unit?.map fun (u, after) =>
      (u.relocate (Position.down lines), after.down lines) := by
  have hskip : (k.down lines).skipBlanks = k.skipBlanks.down lines := skip_down lines isBlank k
  rw [unit?, unit?, hskip, skip_down]
  split <;> rename_i heq
  · rw [show k.skipBlanks.rest.takeWhile _ = [] from heq]
    rfl
  · rw [show k.skipBlanks.rest.takeWhile _ = _ from heq]
    rfl

theorem quotation_down (k : Cursor) :
    (k.down lines).quotation =
      { k.quotation with after := k.quotation.after.down lines } := by
  fun_induction quotation k with
  | case1 k h =>
      have hnone : (k.down lines).unit? = none := by rw [unit?_down, h]; rfl
      rw [quotation]
      split
      · rw [show (k.down lines).skipBlanks = k.skipBlanks.down lines from skip_down ..]
      · next hsome => rw [hnone] at hsome; cases hsome
  | case2 k u after h hquote =>
      have hsome : (k.down lines).unit? =
          some (u.relocate (Position.down lines), after.down lines) := by rw [unit?_down, h]; rfl
      rw [quotation_of_unit? hsome, Located.relocate, if_pos hquote]
  | case3 k u after h hquote q ih =>
      have hsome : (k.down lines).unit? =
          some (u.relocate (Position.down lines), after.down lines) := by rw [unit?_down, h]; rfl
      rw [quotation_of_unit? hsome, Located.relocate, if_neg hquote, ih]

theorem next?_down (k : Cursor) :
    (k.down lines).next? = k.next?.map fun (t, after) =>
      (t.relocate (Position.down lines), after.down lines) := by
  rw [next?, next?, unit?_down]
  cases k.unit? with
  | none => rfl
  | some found =>
      obtain ⟨u, after⟩ := found
      simp only [Option.map_some, Located.relocate, quotation_down]
      split <;> split <;> rfl

/-- A text further down is cut into the same tokens further down. -/
theorem items_tokens_down (k : Cursor) :
    (k.down lines).tokens.items =
      k.tokens.items.map (Located.relocate (Position.down lines)) := by
  fun_induction tokens k with
  | case1 k h =>
      have hnone : (k.down lines).next? = none := by rw [next?_down, h]; rfl
      rw [tokens_of_next?_none hnone]
      rfl
  | case2 k t after h ts ih =>
      have hsome : (k.down lines).next? =
          some (t.relocate (Position.down lines), after.down lines) := by rw [next?_down, h]; rfl
      rw [tokens_of_next?_some hsome, ih]
      rfl

end Cursor

end Pictoscript
