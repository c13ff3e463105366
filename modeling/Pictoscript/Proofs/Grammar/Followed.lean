import Pictoscript.Grammar.Program
import Pictoscript.Proofs.Grammar.Procedures

/-! # Readers follow procedures

Whatever a reader of the grammar comes to within its bound, a run of the procedure
comes to as well. The lemmas put a reader beside a routine that does the same steps; a
call of the routine stands where the reader recurses, with a lower bound, or reads on
by itself.
-/

namespace Pictoscript

namespace Grammar

open Reading

variable {α β : Type} {stop : Position} {ts : List (Located Token)}

/-! ## Combining steps -/

/-- If the reader comes to an outcome, a run of the routine ends in it. -/
def Follows (stop : Position) (r : Reading α) (ρ : Routine α) (ts : List (Located Token)) : Prop :=
  r stop ts ≠ .unfinished → ρ.Runs stop ts (r stop ts)

theorem follows_pure (a : α) : Follows stop (pure a) (pure a) ts := fun _ => .result

theorem follows_refuse (fault : Fault) (p : Position) :
    Follows stop (refuse fault p : Reading α) (Routine.refuse fault p) ts := fun _ => .fault

theorem follows_unfinished (ρ : Routine α) : Follows stop unfinished ρ ts := fun h => absurd rfl h

theorem follows_current_bind {f : Located Token → Reading β} {φ : Located Token → Routine β}
    (h : ∀ t p, head stop ts = ⟨t, p⟩ → Follows stop (f ⟨t, p⟩) (φ ⟨t, p⟩) ts) :
    Follows stop (current >>= f) (Routine.current >>= φ) ts := fun hne =>
  .look (h _ _ rfl hne)

/-- A procedure may look again at a token that the reader knows already. -/
theorem follows_current {r : Reading β} {φ : Located Token → Routine β} {t : Token} {p : Position}
    (hhead : head stop ts = ⟨t, p⟩) (h : Follows stop r (φ ⟨t, p⟩) ts) :
    Follows stop r (Routine.current >>= φ) ts := by
  intro hne
  apply Routine.Runs.look
  rw [hhead]
  exact h hne

/-- What a routine does behind a token that is known. -/
theorem Follows.behind_current {r : Reading β} {φ : Located Token → Routine β} {t : Token}
    {p : Position} (h : Follows stop r (Routine.current >>= φ) ts)
    (hhead : head stop ts = ⟨t, p⟩) : Follows stop r (φ ⟨t, p⟩) ts := by
  intro hne
  rw [← hhead]
  cases h hne with
  | look hrun => exact hrun

theorem follows_following_bind {f : Token → Reading β} {φ : Token → Routine β}
    (h : ∀ t, Follows stop (f t) (φ t) ts) :
    Follows stop (following >>= f) (Routine.following >>= φ) ts := fun hne =>
  .peek (h _ hne)

theorem follows_skip_bind {f : Unit → Reading β} {φ : Unit → Routine β}
    (h : Follows stop (f ()) (φ ()) ts.tail) :
    Follows stop (skip >>= f) (Routine.skip >>= φ) ts := fun hne => .advance (h hne)

theorem follows_expect_bind {wanted : Token} {f : Unit → Reading β} {φ : Unit → Routine β}
    (h : ∀ ts, Follows stop (f ()) (φ ()) ts) :
    Follows stop (expect wanted >>= f) (Routine.expect wanted >>= φ) ts := by
  change Follows stop
    (current >>= fun t =>
      (if t.value = wanted then skip else refuse (.expected wanted t.value) t.position) >>= f)
    (Routine.current >>= fun t =>
      (if t.value = wanted then Routine.skip
        else Routine.refuse (.expected wanted t.value) t.position) >>= φ) ts
  refine follows_current_bind fun t p _ => ?_
  dsimp only
  split
  · exact follows_skip_bind (h _)
  · exact follows_refuse _ p

theorem follows_skip_expect {wanted : Token} {p : Position} {f : Unit → Reading β}
    {φ : Unit → Routine β} (hhead : head stop ts = ⟨wanted, p⟩)
    (h : Follows stop (f ()) (φ ()) ts.tail) :
    Follows stop (skip >>= f) (Routine.expect wanted >>= φ) ts := by
  change Follows stop _ (Routine.current >>= fun t =>
    (if t.value = wanted then Routine.skip
      else Routine.refuse (.expected wanted t.value) t.position) >>= φ) ts
  refine follows_current hhead ?_
  rw [if_pos rfl]
  exact follows_skip_bind h

/-- A reader may be followed by a call where its procedure follows it. -/
theorem follows_call {r : Reading α} {p : Procedure α} (h : Follows stop r p.body ts) :
    Follows stop r (Routine.call p) ts := by
  intro hne
  have hrun := h hne
  cases hr : r stop ts with
  | done a rest =>
      rw [hr] at hrun
      exact .enter hrun .result
  | failed e =>
      rw [hr] at hrun
      exact .enterFailed hrun
  | unfinished => exact absurd hr hne

theorem follows_call_bind {r : Reading α} {p : Procedure α} {f : α → Reading β}
    {φ : α → Routine β} (h : Follows stop r p.body ts)
    (hf : ∀ a ts, Follows stop (f a) (φ a) ts) :
    Follows stop (r >>= f) (Routine.call p >>= φ) ts := by
  intro hne
  rw [bind_apply] at hne ⊢
  cases hr : r stop ts with
  | done a rest =>
      have hrun := h (by simp [hr])
      rw [hr] at hne hrun
      exact .enter hrun (hf a rest hne)
  | failed e =>
      have hrun := h (by simp [hr])
      rw [hr] at hrun
      exact .enterFailed hrun
  | unfinished =>
      rw [hr] at hne
      exact absurd rfl hne

/-! ## Names and numbers -/

theorem runs_symbols (ts : List (Located Token)) :
    Procedure.symbols.body.Runs stop ts (.done (symbolRun ts).1 (symbolRun ts).2) := by
  induction ts with
  | nil => exact .look .result
  | cons t ts ih =>
      obtain ⟨value, p⟩ := t
      cases value with
      | symbol unit => exact .look (.advance (.enter ih .result))
      | _ => exact .look .result

theorem follows_name (role : NameRole) :
    Follows stop (name role) (Procedure.name role).body ts := by
  intro _
  cases ts with
  | nil => exact .look .fault
  | cons t ts =>
      obtain ⟨value, p⟩ := t
      cases value with
      | symbol unit => exact .look (.advance (.enter (runs_symbols ts) .result))
      | _ => exact .look .fault

/-- The digits are taken up one at a time, until one does not fit. -/
theorem runs_moreDigits (start : Position) (value : UInt64) (ts : List (Located Token)) :
    (Procedure.moreDigits start value).body.Runs stop ts
      (match (digitRun ts).1.foldlM extend? value with
      | some w => .done w (digitRun ts).2
      | none => .failed (Fault.numberTooLarge.report start)) := by
  induction ts generalizing value with
  | nil => exact .look .result
  | cons t ts ih =>
      obtain ⟨found, p⟩ := t
      cases found with
      | digit digit =>
          rw [cutsRun_digitRun.cons, List.foldlM_cons]
          apply Routine.Runs.look
          change Routine.Runs stop (match extend? value digit with
            | some more => .advance (.enter (.moreDigits start more) .result)
            | none => .fault .numberTooLarge start) _ _
          cases extend? value digit with
          | none => exact .fault
          | some more =>
              have hmore := ih more
              apply Routine.Runs.advance
              rw [Option.bind_eq_bind, Option.bind_some]
              cases hrun : (digitRun ts).1.foldlM extend? more with
              | none =>
                  rw [hrun] at hmore
                  exact .enterFailed hmore
              | some w =>
                  rw [hrun] at hmore
                  exact .enter hmore .result
      | _ => exact .look .result

/-- A run of digits is read as a number where its first digit is. -/
theorem runs_digits {first : Nat} {p : Position} (hhead : head stop ts = ⟨.digit first, p⟩) :
    (Procedure.digits first).body.Runs stop ts
      (match ofDigits? (digitRun ts).1 with
      | some w => .done w (digitRun ts).2
      | none => .failed (Fault.numberTooLarge.report p)) := by
  obtain ⟨ts, rfl⟩ := eq_cons_of_head hhead (by simp)
  cases runs_moreDigits p 0 (⟨.digit first, p⟩ :: ts) with
  | look hrun => exact .look hrun

theorem follows_number_bind {limit first : Nat} {p : Position} {f : Nat → Reading β}
    {φ : UInt64 → Routine β} (hhead : head stop ts = ⟨.digit first, p⟩)
    (hf : ∀ w ts, w.toNat ≤ limit → Follows stop (f w.toNat) (φ w) ts)
    (hlarge : ∀ w : UInt64, ¬w.toNat ≤ limit → φ w = Routine.refuse .numberTooLarge p) :
    Follows stop (number limit >>= f) (Routine.call (.digits first) >>= φ) ts := by
  intro hne
  have hrun := runs_digits hhead
  rw [bind_apply, number] at hne ⊢
  dsimp only at hne ⊢
  cases hword : ofDigits? (digitRun ts).1 with
  | none =>
      rw [hword] at hrun
      rw [hhead]
      exact .enterFailed hrun
  | some w =>
      rw [hword] at hrun hne
      refine .enter hrun ?_
      by_cases hle : w.toNat ≤ limit
      · rw [Option.filter_some_pos (by simpa using hle)] at hne ⊢
        exact hf w _ hle hne
      · rw [Option.filter_some_neg (by simpa using hle), hhead]
        change Routine.Runs stop (φ w) _ _
        rw [hlarge w hle]
        exact .fault

/-! ## Expressions -/

theorem follows_index : Follows stop index Procedure.index.body ts := by
  refine follows_current_bind fun mark p _ => ?_
  refine follows_skip_bind ?_
  refine follows_current_bind fun t q hhead => ?_
  cases t with
  | digit first =>
      refine follows_number_bind hhead (fun w ts _ => follows_pure _) fun w hlarge => ?_
      exact absurd (Nat.le_of_lt_succ w.toNat_lt_size) hlarge
  | _ => exact follows_refuse _ q

mutual
theorem follows_operandWithin : ∀ (bound : Nat) (g : Bool) (ts : List (Located Token)),
    Follows stop (operandWithin bound g) (Procedure.operand g).body ts
  | 0, _, _ => follows_unfinished _
  | bound + 1, g, ts => by
      refine follows_current_bind fun t p hhead => ?_
      cases t with
      | barrier =>
          refine follows_call (p := .group) (follows_current hhead ?_)
          refine follows_skip_bind ?_
          refine follows_call_bind (follows_expressionWithin bound true _) fun inner ts => ?_
          exact follows_expect_bind fun ts => follows_pure _
      | callStart =>
          refine follows_call (p := .markedCall g) (follows_current hhead ?_)
          refine follows_skip_bind ?_
          refine follows_call_bind (follows_name _) fun callee ts => ?_
          refine follows_expect_bind fun ts => ?_
          refine follows_call_bind (follows_itemsWithin bound g _ ts) fun arguments ts => ?_
          exact follows_expect_bind fun ts => follows_pure _
      | digit first =>
          refine follows_call (p := .primary g) (follows_current hhead ?_)
          refine follows_number_bind hhead (fun w ts hle => ?_) fun w hlarge => if_neg hlarge
          rw [if_pos hle]
          exact follows_pure _
      | text value =>
          refine follows_call (p := .primary g) (follows_current hhead ?_)
          exact follows_skip_bind (follows_pure _)
      | boolean value =>
          refine follows_call (p := .primary g) (follows_current hhead ?_)
          exact follows_skip_bind (follows_pure _)
      | arrayStart =>
          refine follows_call (p := .primary g) (follows_current hhead ?_)
          refine follows_call (p := .array g) (follows_current hhead ?_)
          refine follows_skip_bind ?_
          refine follows_call_bind (follows_itemsWithin bound g _ _) fun elements ts => ?_
          exact follows_expect_bind fun ts => follows_pure _
      | symbol unit =>
          refine follows_call (p := .primary g) (follows_current hhead ?_)
          refine follows_call_bind (follows_name _) fun callee ts => ?_
          refine follows_current_bind fun t p hhead => ?_
          dsimp only
          split
          · next heq =>
            refine follows_call (p := .namedCall g callee) (follows_skip_expect (heq ▸ hhead) ?_)
            refine follows_call_bind (follows_itemsWithin bound g _ _) fun arguments ts => ?_
            exact follows_expect_bind fun ts => follows_pure _
          · exact follows_pure _
      | _ => exact follows_refuse _ p
theorem follows_chainWithin : ∀ (bound : Nat) (g : Bool) (left : Node)
    (ts : List (Located Token)),
    Follows stop (chainWithin bound g left) (Procedure.chain g left).body ts
  | 0, _, _, _ => follows_unfinished _
  | bound + 1, g, left, ts => by
      refine follows_current_bind fun t p _ => ?_
      cases t with
      | operator op =>
          refine follows_following_bind fun next => ?_
          refine follows_skip_bind ?_
          split
          · exact follows_call (follows_chainWithin bound g _ _)
          · refine follows_call_bind (follows_operandWithin bound g _) fun right ts => ?_
            exact follows_call (follows_chainWithin bound g _ ts)
      | _ => exact follows_pure left
theorem follows_expressionWithin : ∀ (bound : Nat) (g : Bool) (ts : List (Located Token)),
    Follows stop (expressionWithin bound g) (Procedure.expression g).body ts
  | 0, _, _ => follows_unfinished _
  | bound + 1, g, ts => by
      refine follows_current_bind fun t p _ => ?_
      dsimp only
      split
      · exact follows_call follows_index
      · refine follows_call_bind (follows_operandWithin bound g ts) fun left ts => ?_
        exact follows_call (follows_chainWithin bound g left ts)
theorem follows_itemsWithin : ∀ (bound : Nat) (g : Bool) (close : Token)
    (ts : List (Located Token)),
    Follows stop (itemsWithin bound g close) (Procedure.items g close).body ts
  | 0, _, _, _ => follows_unfinished _
  | bound + 1, g, close, ts => by
      refine follows_current_bind fun t p _ => ?_
      dsimp only
      split
      · exact follows_pure _
      · split
        · refine follows_skip_bind ?_
          exact follows_call (follows_itemsWithin bound g close _)
        · refine follows_call_bind (follows_expressionWithin bound g ts) fun item ts => ?_
          refine follows_call_bind (follows_itemsWithin bound g close ts) fun rest ts => ?_
          exact follows_pure _
end

theorem follows_expression : Follows stop expression (Procedure.expression false).body ts :=
  follows_expressionWithin _ false ts

/-! ## Statements -/

theorem follows_parametersWithin : ∀ (bound : Nat) (ts : List (Located Token)),
    Follows stop (parametersWithin bound) Procedure.parameters.body ts
  | 0, _ => follows_unfinished _
  | bound + 1, ts => by
      refine follows_current_bind fun t p _ => ?_
      dsimp only
      split
      · refine follows_skip_bind ?_
        refine follows_call_bind (follows_name _) fun parameter ts => ?_
        refine follows_call_bind (follows_parametersWithin bound ts) fun rest ts => ?_
        exact follows_pure _
      · exact follows_pure _

theorem follows_binding {role : NameRole} {build : Name → Node → Position → Node} {t : Token}
    {p : Position} (hhead : head stop ts = ⟨t, p⟩) :
    Follows stop (do
      skip
      let bound ← name role
      expect .arrow
      let value ← expression
      return build bound value p) (Routine.binding role build) ts := by
  refine follows_current hhead ?_
  refine follows_skip_bind ?_
  refine follows_call_bind (follows_name _) fun bound ts => ?_
  refine follows_expect_bind fun ts => ?_
  exact follows_call_bind follows_expression fun value ts => follows_pure _

mutual
theorem follows_statementWithin : ∀ (bound : Nat) (ts : List (Located Token)),
    Follows stop (statementWithin bound) Procedure.statement.body ts
  | 0, _ => follows_unfinished _
  | bound + 1, ts => by
      refine follows_current_bind fun t p hhead => ?_
      cases t with
      | declare => exact follows_call (p := .declaration) (follows_binding hhead)
      | assign => exact follows_call (p := .assignment) (follows_binding hhead)
      | branch =>
          refine follows_call (p := .branch) (follows_current hhead ?_)
          refine follows_skip_bind ?_
          refine follows_call_bind follows_expression fun condition ts => ?_
          refine follows_expect_bind fun ts => ?_
          refine follows_call_bind (follows_blockWithin bound _ ts) fun consequent ts => ?_
          refine follows_current_bind fun t q _ => ?_
          dsimp only
          split
          · refine follows_skip_bind ?_
            refine follows_call_bind (follows_blockWithin bound _ _) fun alternative ts => ?_
            exact follows_expect_bind fun ts => follows_pure _
          · exact follows_expect_bind fun ts => follows_pure _
      | loop =>
          refine follows_call (p := .loop) (follows_current hhead ?_)
          refine follows_skip_bind ?_
          refine follows_call_bind follows_expression fun condition ts => ?_
          refine follows_expect_bind fun ts => ?_
          refine follows_call_bind (follows_blockWithin bound _ ts) fun body ts => ?_
          exact follows_expect_bind fun ts => follows_pure _
      | define =>
          refine follows_call (p := .definition) (follows_current hhead ?_)
          refine follows_skip_bind ?_
          refine follows_call_bind (follows_name _) fun defined ts => ?_
          refine follows_call_bind (follows_parametersWithin bound ts) fun parameters ts => ?_
          refine follows_expect_bind fun ts => ?_
          refine follows_call_bind (follows_blockWithin bound _ ts) fun body ts => ?_
          exact follows_expect_bind fun ts => follows_pure _
      | print =>
          refine follows_call (p := .print) (follows_current hhead ?_)
          refine follows_skip_bind ?_
          exact follows_call_bind follows_expression fun value ts => follows_pure _
      | callStart => exact (follows_operandWithin _ false ts).behind_current hhead
      | index => exact follows_expression.behind_current hhead
      | arrow | otherwise | stop | callEnd | arrayEnd | comma | operator op =>
          exact follows_refuse _ p
      | _ => exact follows_call follows_expression
theorem follows_blockWithin : ∀ (bound : Nat) (closing : List Token) (ts : List (Located Token)),
    Follows stop (blockWithin bound closing) (Procedure.block closing).body ts
  | 0, _, _ => follows_unfinished _
  | bound + 1, closing, ts => by
      refine follows_current_bind fun t p _ => ?_
      dsimp only
      split
      · exact follows_pure _
      · refine follows_call_bind (follows_statementWithin bound ts) fun statement ts => ?_
        refine follows_call_bind (follows_blockWithin bound closing ts) fun rest ts => ?_
        exact follows_pure _
end

end Grammar

end Pictoscript
