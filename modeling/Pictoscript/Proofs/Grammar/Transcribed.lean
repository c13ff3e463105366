import Pictoscript.Proofs.Grammar.Complete
import Pictoscript.Proofs.Transcription

/-! # Reading transcribed tokens

The grammar does not notice a transcription. Its readers only carry positions along, and
of a symbol or a quoted text they look at what kind of token it is. So reading
transcribed tokens gives the transcribed tree, or refuses the transcribed token for the
same reason.

The lemmas compare a reader on some tokens with the same reader on the transcribed
tokens. What a reader returns may hold positions and spellings, so `Transcribes` takes
the function that transcribes it.
-/

namespace Pictoscript

/-- The outcomes of reading the same tokens before and after a transcription, where `g`
transcribes the value. -/
inductive Outcome.Transcribed {α β : Type} (τ : Transcription) (g : α → β) :
    Outcome α → Outcome β → Prop
  | done (a : α) (rest : List (Located Token)) :
      Transcribed τ g (.done a rest) (.done (g a) (rest.map τ.located))
  | failed (fault : Fault) (p : Position) :
      Transcribed τ g (.failed (fault.report p)) (.failed ((τ.fault fault).report (τ.place p)))
  | unfinished : Transcribed τ g .unfinished .unfinished

namespace Reading

variable {α β γ δ : Type} {τ : Transcription} {g : α → β} {h : γ → δ}

/-- On transcribed tokens `r'` has the transcribed outcome of `r`. -/
def Transcribes (τ : Transcription) (g : α → β) (r : Reading α) (r' : Reading β) : Prop :=
  ∀ stop ts, Outcome.Transcribed τ g (r stop ts) (r' (τ.place stop) (ts.map τ.located))

/-! ## Combining readings -/

theorem Transcribes.bind {r : Reading α} {r' : Reading β} {k : α → Reading γ}
    {k' : β → Reading δ} (hr : Transcribes τ g r r')
    (hk : ∀ a, Transcribes τ h (k a) (k' (g a))) : Transcribes τ h (r >>= k) (r' >>= k') := by
  intro stop ts
  have houtcome := hr stop ts
  rw [bind_apply, bind_apply]
  generalize r stop ts = o, r' (τ.place stop) (ts.map τ.located) = o' at houtcome
  cases houtcome with
  | done a rest => exact hk a stop rest
  | failed fault p => exact .failed fault p
  | unfinished => exact .unfinished

theorem transcribes_pure (a : α) : Transcribes τ g (pure a) (pure (g a)) :=
  fun _ ts => .done a ts

theorem transcribes_unfinished : Transcribes τ g unfinished unfinished :=
  fun _ _ => .unfinished

theorem transcribes_refuse (fault : Fault) (p : Position) :
    Transcribes τ g (refuse fault p) (refuse (τ.fault fault) (τ.place p)) :=
  fun _ _ => .failed fault p

theorem Transcribes.ite {c c' : Prop} [Decidable c] [Decidable c'] (hc : c' ↔ c)
    {r s : Reading α} {r' s' : Reading β} (hr : Transcribes τ g r r')
    (hs : Transcribes τ g s s') :
    Transcribes τ g (if c then r else s) (if c' then r' else s') := by
  by_cases h : c
  · rw [if_pos h, if_pos (hc.mpr h)]
    exact hr
  · rw [if_neg h, if_neg (mt hc.mp h)]
    exact hs

theorem head_transcribed (stop : Position) (ts : List (Located Token)) :
    head (τ.place stop) (ts.map τ.located) = τ.located (head stop ts) := by
  cases ts <;> rfl

theorem transcribes_current : Transcribes τ τ.located current current := by
  intro stop ts
  rw [current, current, head_transcribed]
  exact .done _ ts

theorem transcribes_following : Transcribes τ τ.token following following := by
  intro stop ts
  rw [following, following, ← List.map_tail, head_transcribed]
  exact .done _ ts

theorem transcribes_skip : Transcribes τ id skip skip := by
  intro stop ts
  rw [skip, skip, ← List.map_tail]
  exact .done () ts.tail

theorem transcribes_expect {wanted : Token} (hwanted : wanted.isFixed = true) :
    Transcribes τ id (expect wanted) (expect wanted) := by
  refine transcribes_current.bind fun t => ?_
  exact .ite (Transcription.token_eq_iff hwanted) transcribes_skip (transcribes_refuse _ _)

/-! ## Runs -/

theorem nextToken_transcribed (ts : List (Located Token)) :
    Grammar.nextToken (ts.map τ.located) = τ.token (Grammar.nextToken ts) := by
  cases ts <;> rfl

/-- A run stays a run if its tokens, and no others, are transcribed to tokens of its
kind. -/
theorem CutsRun.transcribed {token : α → Token}
    {run : List (Located Token) → List α × List (Located Token)} (hrun : CutsRun token run)
    {g : α → α} (htoken : ∀ a, τ.token (token a) = token (g a))
    (hback : ∀ t a, τ.token t = token a → ∃ b, t = token b) (ts : List (Located Token)) :
    run (ts.map τ.located) = ((run ts).1.map g, (run ts).2.map τ.located) := by
  obtain ⟨us, hts, hmap, hnext⟩ := hrun.split ts
  have hnext' : ∀ a, Grammar.nextToken ((run ts).2.map τ.located) ≠ token a := by
    intro a heq
    rw [nextToken_transcribed] at heq
    obtain ⟨b, hb⟩ := hback _ a heq
    exact hnext b hb
  have hmap' : (us.map τ.located).map Located.value = ((run ts).1.map g).map token := by
    calc (us.map τ.located).map Located.value
        = (us.map Located.value).map τ.token := by rw [List.map_map, List.map_map]; rfl
      _ = ((run ts).1.map g).map token := by
          rw [hmap, List.map_map, List.map_map]
          exact List.map_congr_left fun a _ => htoken a
  have happend := hrun.append hnext' hmap'
  rwa [← List.map_append, ← hts] at happend

theorem transcribes_name (role : NameRole) : Transcribes τ τ.name (name role) (name role) := by
  intro stop ts
  have hback : ∀ t unit, τ.token t = .symbol unit → ∃ b, t = .symbol b := by
    intro t unit heq
    cases t <;> cases heq
    exact ⟨_, rfl⟩
  unfold name
  rw [cutsRun_symbolRun.transcribed (fun _ => rfl) hback, head_transcribed]
  rcases symbolRun ts with ⟨units, rest⟩
  cases units with
  | nil => exact .failed (.expectedName role (head stop ts).value) (head stop ts).position
  | cons unit units =>
      have hjoin := τ.spell_join (unit :: units)
      rw [List.map_cons] at hjoin
      simp only [List.map_cons]
      rw [← hjoin]
      exact .done (g := τ.name) ⟨String.join (unit :: units), (head stop ts).position⟩ rest

theorem transcribes_number (limit : Nat) : Transcribes τ id (number limit) (number limit) := by
  intro stop ts
  have hback : ∀ t value, τ.token t = .digit value → ∃ b, t = .digit b := by
    intro t value heq
    exact ⟨value, (Transcription.token_eq_iff rfl).mp heq⟩
  rw [number_apply, number_apply, cutsRun_digitRun.transcribed (g := id) (fun _ => rfl) hback,
    head_transcribed, List.map_id]
  split
  · exact .done _ _
  · exact .failed .numberTooLarge _

end Reading

namespace Grammar

open Reading

variable {τ : Transcription}

/-! ## Expressions -/

theorem negatesLeft_token (inGroup : Bool) (t : Token) :
    negatesLeft inGroup (τ.token t) = negatesLeft inGroup t := by
  cases t <;> rfl

theorem transcribes_index : Transcribes τ τ.node index index := by
  refine transcribes_current.bind fun mark => ?_
  refine transcribes_skip.bind fun _ => ?_
  refine transcribes_current.bind fun t => ?_
  obtain ⟨value, p⟩ := t
  cases value with
  | digit v => exact (transcribes_number _).bind fun offset => transcribes_pure _
  | _ => exact transcribes_refuse _ _

-- What ends a list or a block has to be a fixed token, or a transcription could make one.
mutual
theorem transcribes_operandWithin : ∀ (bound : Nat) (inGroup : Bool),
    Transcribes τ τ.node (operandWithin bound inGroup) (operandWithin bound inGroup)
  | 0, _ => transcribes_unfinished
  | bound + 1, inGroup => by
      refine transcribes_current.bind fun t => ?_
      obtain ⟨value, p⟩ := t
      cases value with
      | barrier =>
          refine transcribes_skip.bind fun _ => ?_
          refine (transcribes_expressionWithin bound true).bind fun inner => ?_
          refine (transcribes_expect rfl).bind fun _ => ?_
          rw [← Transcription.expression_group]
          exact transcribes_pure _
      | callStart =>
          refine transcribes_skip.bind fun _ => ?_
          refine (transcribes_name _).bind fun callee => ?_
          refine (transcribes_expect rfl).bind fun _ => ?_
          refine (transcribes_itemsWithin bound inGroup rfl).bind fun arguments => ?_
          exact (transcribes_expect rfl).bind fun _ => transcribes_pure _
      | digit value => exact (transcribes_number _).bind fun _ => transcribes_pure _
      | text value => exact transcribes_skip.bind fun _ => transcribes_pure _
      | boolean value => exact transcribes_skip.bind fun _ => transcribes_pure _
      | arrayStart =>
          refine transcribes_skip.bind fun _ => ?_
          refine (transcribes_itemsWithin bound inGroup rfl).bind fun elements => ?_
          exact (transcribes_expect rfl).bind fun _ => transcribes_pure _
      | symbol unit =>
          refine (transcribes_name _).bind fun callee => ?_
          refine transcribes_current.bind fun next => ?_
          refine .ite (Transcription.token_eq_iff rfl) ?_ (transcribes_pure _)
          refine transcribes_skip.bind fun _ => ?_
          refine (transcribes_itemsWithin bound inGroup rfl).bind fun arguments => ?_
          exact (transcribes_expect rfl).bind fun _ => transcribes_pure _
      | _ => exact transcribes_refuse _ _
theorem transcribes_chainWithin : ∀ (bound : Nat) (inGroup : Bool) (left : Node),
    Transcribes τ τ.node (chainWithin bound inGroup left)
      (chainWithin bound inGroup (τ.node left))
  | 0, _, _ => transcribes_unfinished
  | bound + 1, inGroup, left => by
      refine transcribes_current.bind fun t => ?_
      obtain ⟨value, p⟩ := t
      cases value with
      | operator op =>
          refine transcribes_following.bind fun next => ?_
          refine transcribes_skip.bind fun _ => ?_
          refine .ite (by rw [negatesLeft_token]) (transcribes_chainWithin bound inGroup _) ?_
          refine (transcribes_operandWithin bound inGroup).bind fun right => ?_
          exact transcribes_chainWithin bound inGroup _
      | _ => exact transcribes_pure _
theorem transcribes_expressionWithin : ∀ (bound : Nat) (inGroup : Bool),
    Transcribes τ τ.node (expressionWithin bound inGroup) (expressionWithin bound inGroup)
  | 0, _ => transcribes_unfinished
  | bound + 1, inGroup => by
      refine transcribes_current.bind fun t => ?_
      refine .ite (Transcription.token_eq_iff rfl) transcribes_index ?_
      refine (transcribes_operandWithin bound inGroup).bind fun left => ?_
      exact transcribes_chainWithin bound inGroup left
theorem transcribes_itemsWithin : ∀ (bound : Nat) (inGroup : Bool) {close : Token},
    close.isFixed = true →
    Transcribes τ τ.nodes (itemsWithin bound inGroup close) (itemsWithin bound inGroup close)
  | 0, _, _, _ => transcribes_unfinished
  | bound + 1, inGroup, close, hclose => by
      refine transcribes_current.bind fun t => ?_
      refine .ite (or_congr (Transcription.token_eq_iff rfl) (Transcription.token_eq_iff hclose))
        (transcribes_pure _) (.ite (Transcription.token_eq_iff rfl) ?_ ?_)
      · exact transcribes_skip.bind fun _ => transcribes_itemsWithin bound inGroup hclose
      · refine (transcribes_expressionWithin bound inGroup).bind fun item => ?_
        refine (transcribes_itemsWithin bound inGroup hclose).bind fun rest => ?_
        exact transcribes_pure _
end

theorem expressionBound_transcribed (ts : List (Located Token)) :
    expressionBound (ts.map τ.located) = expressionBound ts := by
  simp [expressionBound]

theorem transcribes_operand : Transcribes τ τ.node operand operand := by
  intro stop ts
  unfold operand
  rw [expressionBound_transcribed]
  exact transcribes_operandWithin _ false stop ts

theorem transcribes_expression : Transcribes τ τ.node expression expression := by
  intro stop ts
  unfold expression
  rw [expressionBound_transcribed]
  exact transcribes_expressionWithin _ false stop ts

/-! ## Statements -/

theorem transcribes_parametersWithin : ∀ bound : Nat,
    Transcribes τ (List.map τ.name) (parametersWithin bound) (parametersWithin bound)
  | 0 => transcribes_unfinished
  | bound + 1 => by
      refine transcribes_current.bind fun t => ?_
      refine .ite (Transcription.token_eq_iff rfl) ?_ (transcribes_pure _)
      refine transcribes_skip.bind fun _ => ?_
      refine (transcribes_name _).bind fun parameter => ?_
      refine (transcribes_parametersWithin bound).bind fun rest => ?_
      exact transcribes_pure _

mutual
theorem transcribes_statementWithin : ∀ bound : Nat,
    Transcribes τ τ.node (statementWithin bound) (statementWithin bound)
  | 0 => transcribes_unfinished
  | bound + 1 => by
      refine transcribes_current.bind fun t => ?_
      obtain ⟨value, p⟩ := t
      cases value with
      | declare =>
          refine transcribes_skip.bind fun _ => ?_
          refine (transcribes_name _).bind fun declared => ?_
          refine (transcribes_expect rfl).bind fun _ => ?_
          exact transcribes_expression.bind fun value => transcribes_pure _
      | assign =>
          refine transcribes_skip.bind fun _ => ?_
          refine (transcribes_name _).bind fun target => ?_
          refine (transcribes_expect rfl).bind fun _ => ?_
          exact transcribes_expression.bind fun value => transcribes_pure _
      | branch =>
          refine transcribes_skip.bind fun _ => ?_
          refine transcribes_expression.bind fun condition => ?_
          refine (transcribes_expect rfl).bind fun _ => ?_
          refine (transcribes_blockWithin bound (by decide)).bind fun consequent => ?_
          refine transcribes_current.bind fun next => ?_
          rw [← Transcription.expression_ofNode]
          refine .ite (Transcription.token_eq_iff rfl) ?_ ?_
          · refine transcribes_skip.bind fun _ => ?_
            refine (transcribes_blockWithin bound (by decide)).bind fun alternative => ?_
            exact (transcribes_expect rfl).bind fun _ => transcribes_pure _
          · exact (transcribes_expect rfl).bind fun _ => transcribes_pure _
      | loop =>
          refine transcribes_skip.bind fun _ => ?_
          refine transcribes_expression.bind fun condition => ?_
          refine (transcribes_expect rfl).bind fun _ => ?_
          refine (transcribes_blockWithin bound (by decide)).bind fun body => ?_
          rw [← Transcription.expression_ofNode]
          exact (transcribes_expect rfl).bind fun _ => transcribes_pure _
      | define =>
          refine transcribes_skip.bind fun _ => ?_
          refine (transcribes_name _).bind fun defined => ?_
          refine (transcribes_parametersWithin bound).bind fun parameters => ?_
          refine (transcribes_expect rfl).bind fun _ => ?_
          refine (transcribes_blockWithin bound (by decide)).bind fun body => ?_
          exact (transcribes_expect rfl).bind fun _ => transcribes_pure _
      | print =>
          refine transcribes_skip.bind fun _ => ?_
          exact transcribes_expression.bind fun value => transcribes_pure _
      | callStart => exact transcribes_operand
      | arrow | otherwise | stop | callEnd | arrayEnd | comma | operator _ =>
          exact transcribes_refuse _ _
      | _ => exact transcribes_expression
theorem transcribes_blockWithin : ∀ (bound : Nat) {closing : List Token},
    (∀ w ∈ closing, w.isFixed = true) →
    Transcribes τ τ.nodes (blockWithin bound closing) (blockWithin bound closing)
  | 0, _, _ => transcribes_unfinished
  | bound + 1, closing, hclosing => by
      refine transcribes_current.bind fun t => ?_
      refine .ite (or_congr (Transcription.token_eq_iff rfl)
        (Transcription.token_mem_iff hclosing)) (transcribes_pure _) ?_
      refine (transcribes_statementWithin bound).bind fun statement => ?_
      refine (transcribes_blockWithin bound hclosing).bind fun rest => ?_
      exact transcribes_pure _
end

theorem transcribes_statements : Transcribes τ τ.nodes statements statements := by
  intro stop ts
  have hbound : blockBound (ts.map τ.located) = blockBound ts := by simp [blockBound]
  unfold statements
  rw [hbound]
  exact transcribes_blockWithin _ (by decide) stop ts

end Grammar

namespace Program

theorem ofTokens_of_done {ts : Tokens} {statements : List Node} {rest : List (Located Token)}
    (h : Grammar.statements ts.stop ts.items = .done statements rest) :
    ofTokens ts = .ok ⟨statements, (Reading.head ts.stop ts.items).position⟩ := by
  rw [ofTokens, Outcome.settle_eq_ok_iff.mpr ⟨rest, h⟩]

theorem ofTokens_of_failed {ts : Tokens} {e : SyntaxError}
    (h : Grammar.statements ts.stop ts.items = .failed e) : ofTokens ts = .error e := by
  rw [ofTokens, Outcome.settle_eq_error_iff.mpr h]

/-- Transcribed tokens are read as the transcribed program, or refused for the same
reason at the transcribed place. -/
theorem ofTokens_transcribed (τ : Transcription) (ts : Tokens) :
    (∃ p, ofTokens ts = .ok p ∧ ofTokens (τ.tokens ts) = .ok (τ.program p)) ∨
      ∃ (fault : Fault) (p : Position), ofTokens ts = .error (fault.report p) ∧
        ofTokens (τ.tokens ts) = .error ((τ.fault fault).report (τ.place p)) := by
  have houtcome : Outcome.Transcribed τ τ.nodes (Grammar.statements ts.stop ts.items)
      (Grammar.statements (τ.tokens ts).stop (τ.tokens ts).items) :=
    Grammar.transcribes_statements ts.stop ts.items
  have hhead : Reading.head (τ.tokens ts).stop (τ.tokens ts).items =
      τ.located (Reading.head ts.stop ts.items) := Reading.head_transcribed ts.stop ts.items
  generalize hread : Grammar.statements ts.stop ts.items = o,
    hread' : Grammar.statements (τ.tokens ts).stop (τ.tokens ts).items = o' at houtcome
  cases houtcome with
  | done statements rest =>
      refine .inl ⟨_, ofTokens_of_done hread, ?_⟩
      rw [ofTokens_of_done hread', hhead]
      rfl
  | failed fault p =>
      exact .inr ⟨fault, p, ofTokens_of_failed hread, ofTokens_of_failed hread'⟩
  | unfinished => exact absurd hread (Grammar.statements_ne_unfinished _ _)

end Program

end Pictoscript
