import Pictoscript.Proofs.Grammar.Procedures

/-! # Every call descends

A procedure of the grammar calls another where fewer tokens are left than it was given, or
before it has consumed any and then only one of lower rank. All procedures but the loops
consume a token or fail. To see this the body of each procedure is looked at once, and of
the procedures that it calls it only has to be known whether they are loops: this is
`Routine.Obeys`, and `Call.proceeds` has it for all bodies.

Some procedures begin by passing over a token without looking at it. They are called only
where their opening token is the first one, so that `Call.Ready` is part of what a body
has to ensure for the calls that it makes.
-/

namespace Pictoscript

namespace Grammar

open Reading (head)

/-! ## Ranks and opening tokens -/

namespace Procedure

variable {α : Type}

/-- A loop calls itself for its next round, and may end without consuming anything. -/
def isLoop : Procedure α → Bool
  | .block _ | .items .. | .chain .. | .parameters | .symbols | .moreDigits .. => true
  | _ => false

/-- A procedure that has consumed nothing yet calls procedures of lower rank only. -/
@[simp] def rank : Procedure α → Nat
  | .block _ | .items .. => 5
  | .statement => 4
  | .expression _ => 3
  | .operand _ => 2
  | .primary _ => 1
  | _ => 0

/-- The token that has to be the first where the procedure is called, if there is one. -/
def opening : Procedure α → Option Token
  | .declaration => some .declare
  | .assignment => some .assign
  | .branch => some .branch
  | .loop => some .loop
  | .definition => some .define
  | .print => some .print
  | .index => some .index
  | .group => some .barrier
  | .markedCall _ => some .callStart
  | .array _ => some .arrayStart
  | .digits first => some (.digit first)
  | _ => none

/-- Of `n` tokens a procedure leaves fewer than this. -/
def limit (p : Procedure α) (n : Nat) : Nat := if p.isLoop then n + 1 else n

end Procedure

namespace Call

/-- The call begins with the opening token of its procedure. -/
def Ready (stop : Position) (c : Call) : Prop :=
  ∀ t, c.procedure.opening = some t → (head stop c.tokens).value = t

/-- There are fewer tokens left, or the same and the rank is lower. -/
def Below (c' c : Call) : Prop :=
  c'.tokens.length < c.tokens.length ∨
    c'.tokens = c.tokens ∧ c'.procedure.rank < c.procedure.rank

structure Admits (stop : Position) (c c' : Call) : Prop where
  ready : c'.Ready stop
  below : c'.Below c
  /-- The next round of a loop has fewer tokens. -/
  round : c.procedure.isLoop = true → c'.procedure.isLoop = true →
    c'.tokens.length < c.tokens.length

theorem wellFounded_below : WellFounded Below := by
  refine Subrelation.wf ?_ (InvImage.wf (fun c : Call => (c.tokens.length, c.procedure.rank))
    (Prod.lex Nat.lt_wfRel Nat.lt_wfRel).wf)
  rintro c' c (hlt | ⟨heq, hlt⟩)
  · exact Prod.Lex.left _ _ hlt
  · show Prod.Lex _ _ (c'.tokens.length, _) (c.tokens.length, _)
    rw [heq]
    exact Prod.Lex.right _ hlt

variable {α β : Type} {stop : Position} {p : Procedure α} {q : Procedure β}
  {ts us : List (Located Token)}

theorem ready_of_opening (h : q.opening = none) : Ready stop ⟨q, ts⟩ := by
  intro t ht
  rw [h] at ht
  cases ht

theorem ready_of_head {t : Token} {x : Position} (hhead : head stop ts = ⟨t, x⟩)
    (h : q.opening = some t) : Ready stop ⟨q, ts⟩ := by
  intro t' ht'
  rw [h] at ht'
  cases ht'
  exact congrArg Located.value hhead

/-- Behind a token that was consumed every procedure may be called that is ready, loops
included. -/
theorem admits_later (hlt : us.length < ts.length) (h : Ready stop ⟨q, us⟩) :
    Admits stop ⟨p, ts⟩ ⟨q, us⟩ :=
  ⟨h, .inl hlt, fun _ _ => hlt⟩

/-- Before that a procedure of lower rank may be called. -/
theorem admits_lower (hrank : q.rank < p.rank) (hloop : q.isLoop = false)
    (h : Ready stop ⟨q, ts⟩) : Admits stop ⟨p, ts⟩ ⟨q, ts⟩ :=
  ⟨h, .inr ⟨rfl, hrank⟩, fun _ hq => absurd hq (by simp [hloop])⟩

end Call

/-! ## What a routine has to obey -/

namespace Routine

/-- A run of the routine where `ts` are left passes over tokens that are there, makes
only calls that are allowed and leaves fewer than `n` tokens if it succeeds, provided
that the procedures it calls keep to their limits. -/
def Obeys (stop : Position) (allowed : Call → Prop) (n : Nat) {α : Type} :
    Routine α → List (Located Token) → Prop
  | .result _, ts => ts.length < n
  | .fault .., _ => True
  | .look k, ts => (k (head stop ts)).Obeys stop allowed n ts
  | .peek k, ts => (k (head stop ts.tail).value).Obeys stop allowed n ts
  | .advance k, ts => ts ≠ [] ∧ k.Obeys stop allowed n ts.tail
  | .enter p k, ts => allowed ⟨p, ts⟩ ∧
      ∀ b rest, rest.length < p.limit ts.length → (k b).Obeys stop allowed n rest

variable {α β : Type} {stop : Position} {allowed : Call → Prop} {n : Nat}
  {ts : List (Located Token)}

theorem obeys_pure {a : α} (h : ts.length < n) :
    (pure a : Routine α).Obeys stop allowed n ts := h

theorem obeys_refuse (fault : Fault) (p : Position) :
    (refuse fault p : Routine α).Obeys stop allowed n ts := trivial

theorem obeys_current_bind {φ : Located Token → Routine β}
    (h : ∀ t p, head stop ts = ⟨t, p⟩ → (φ ⟨t, p⟩).Obeys stop allowed n ts) :
    (current >>= φ).Obeys stop allowed n ts := h _ _ rfl

theorem obeys_following_bind {φ : Token → Routine β}
    (h : ∀ t, (φ t).Obeys stop allowed n ts) :
    (following >>= φ).Obeys stop allowed n ts := h _

/-- A token may be passed over where it is known to be there. -/
theorem obeys_skip_bind {φ : Unit → Routine β} {t : Token} {p : Position}
    (hhead : head stop ts = ⟨t, p⟩) (ht : t ≠ .endOfInput)
    (h : ∀ rest, rest.length < ts.length → (φ ()).Obeys stop allowed n rest) :
    (skip >>= φ).Obeys stop allowed n ts := by
  obtain ⟨rest, rfl⟩ := Reading.eq_cons_of_head hhead ht
  exact ⟨by simp, h rest (by simp)⟩

theorem obeys_expect_bind {φ : Unit → Routine β} {wanted : Token} (hw : wanted ≠ .endOfInput)
    (h : ∀ rest, rest.length < ts.length → (φ ()).Obeys stop allowed n rest) :
    (expect wanted >>= φ).Obeys stop allowed n ts := by
  change (current >>= fun t =>
    (if t.value = wanted then skip
      else refuse (.expected wanted t.value) t.position) >>= φ).Obeys stop allowed n ts
  refine obeys_current_bind fun t p hhead => ?_
  dsimp only
  split
  · next heq => exact obeys_skip_bind hhead (heq ▸ hw) h
  · exact obeys_refuse _ p

/-- A procedure that is no loop consumes a token. -/
theorem obeys_call_bind {p : Procedure α} {φ : α → Routine β} (hloop : p.isLoop = false)
    (hallowed : allowed ⟨p, ts⟩)
    (h : ∀ a rest, rest.length < ts.length → (φ a).Obeys stop allowed n rest) :
    (call p >>= φ).Obeys stop allowed n ts := by
  refine ⟨hallowed, fun a rest hrest => h a rest ?_⟩
  simpa [Procedure.limit, hloop] using hrest

theorem obeys_loop_bind {p : Procedure α} {φ : α → Routine β} (hallowed : allowed ⟨p, ts⟩)
    (h : ∀ a rest, rest.length ≤ ts.length → (φ a).Obeys stop allowed n rest) :
    (call p >>= φ).Obeys stop allowed n ts := by
  refine ⟨hallowed, fun a rest hrest => h a rest ?_⟩
  rw [Procedure.limit] at hrest
  split at hrest <;> omega

theorem obeys_call {p : Procedure α} (hallowed : allowed ⟨p, ts⟩)
    (hlimit : p.limit ts.length ≤ n) : (call p).Obeys stop allowed n ts :=
  ⟨hallowed, fun _ _ hrest => Nat.lt_of_lt_of_le hrest hlimit⟩

/-- A procedure that begins with its opening token passes over it. -/
theorem obeys_opening_bind {φ : Located Token → Routine β} {p : Procedure α} {t : Token}
    (hready : Call.Ready stop ⟨p, ts⟩) (hopening : p.opening = some t) (ht : t ≠ .endOfInput)
    (h : ∀ u rest, rest.length < ts.length → (φ u).Obeys stop allowed n rest) :
    (current >>= fun u => skip >>= fun _ => φ u).Obeys stop allowed n ts := by
  refine obeys_current_bind fun u x hhead => ?_
  have hu : u = t := (congrArg Located.value hhead).symm.trans (hready t hopening)
  exact obeys_skip_bind hhead (hu ▸ ht) (h _)

end Routine

/-! ## The bodies of the procedures -/

namespace Call

open Routine

/-- Where `ts` are left, the body of the procedure obeys its rank and its limit. -/
def Proceeds {α : Type} (stop : Position) (p : Procedure α) (ts : List (Located Token)) : Prop :=
  p.body.Obeys stop (Admits stop ⟨p, ts⟩) (p.limit ts.length) ts

variable {stop : Position} {ts : List (Located Token)}

/-! ### Names and numbers -/

theorem proceeds_symbols : Proceeds stop .symbols ts := by
  refine obeys_current_bind fun t p hhead => ?_
  dsimp only
  split
  · refine obeys_skip_bind hhead (by simp) fun ts₁ h₁ => ?_
    refine obeys_loop_bind (admits_later h₁ (ready_of_opening rfl)) fun units ts₂ h₂ => ?_
    exact obeys_pure (Nat.lt_succ_of_lt (Nat.lt_of_le_of_lt h₂ h₁))
  · exact obeys_pure (Nat.lt_succ_self _)

theorem proceeds_name (role : NameRole) : Proceeds stop (.name role) ts := by
  refine obeys_current_bind fun t p hhead => ?_
  dsimp only
  split
  · refine obeys_skip_bind hhead (by simp) fun ts₁ h₁ => ?_
    refine obeys_loop_bind (admits_later h₁ (ready_of_opening rfl)) fun units ts₂ h₂ => ?_
    exact obeys_pure (Nat.lt_of_le_of_lt h₂ h₁)
  · exact obeys_refuse _ p

theorem proceeds_moreDigits (start : Position) (value : UInt64) :
    Proceeds stop (.moreDigits start value) ts := by
  refine obeys_current_bind fun t p hhead => ?_
  dsimp only
  split
  · split
    · refine obeys_skip_bind hhead (by simp) fun ts₁ h₁ => ?_
      exact obeys_call (admits_later h₁ (ready_of_opening rfl)) (Nat.le_succ_of_le h₁)
    · exact obeys_refuse _ start
  · exact obeys_pure (Nat.lt_succ_self _)

theorem proceeds_digits {first : Nat} (h : Ready stop ⟨.digits first, ts⟩) :
    Proceeds stop (.digits first) ts := by
  refine obeys_current_bind fun t p hhead => ?_
  have ht : t = .digit first := (congrArg Located.value hhead).symm.trans (h _ rfl)
  dsimp only
  split
  · refine obeys_skip_bind hhead (by simp [ht]) fun ts₁ h₁ => ?_
    exact obeys_call (admits_later h₁ (ready_of_opening rfl)) h₁
  · exact obeys_refuse _ p

/-! ### Expressions -/

theorem proceeds_index (h : Ready stop ⟨.index, ts⟩) : Proceeds stop .index ts := by
  refine obeys_opening_bind h rfl (by decide) fun mark ts₁ h₁ => ?_
  refine obeys_current_bind fun t p hhead => ?_
  dsimp only
  split
  · refine obeys_call_bind rfl (admits_later h₁ (ready_of_head hhead rfl)) fun offset ts₂ h₂ => ?_
    exact obeys_pure (Nat.lt_trans h₂ h₁)
  · exact obeys_refuse _ p

theorem proceeds_expression (g : Bool) : Proceeds stop (.expression g) ts := by
  refine obeys_current_bind fun t p hhead => ?_
  dsimp only
  split
  · next heq =>
    exact obeys_call (admits_lower (by simp) rfl (ready_of_head (heq ▸ hhead) rfl))
      (Nat.le_refl _)
  · refine obeys_call_bind rfl (admits_lower (by simp) rfl (ready_of_opening rfl))
      fun left ts₁ h₁ => ?_
    exact obeys_call (admits_later h₁ (ready_of_opening rfl)) h₁

theorem proceeds_chain (g : Bool) (left : Node) : Proceeds stop (.chain g left) ts := by
  refine obeys_current_bind fun t p hhead => ?_
  dsimp only
  split
  · refine obeys_following_bind fun next => ?_
    refine obeys_skip_bind hhead (by simp) fun ts₁ h₁ => ?_
    split
    · exact obeys_call (admits_later h₁ (ready_of_opening rfl)) (Nat.le_succ_of_le h₁)
    · refine obeys_call_bind rfl (admits_later h₁ (ready_of_opening rfl)) fun right ts₂ h₂ => ?_
      have h₃ := Nat.lt_trans h₂ h₁
      exact obeys_call (admits_later h₃ (ready_of_opening rfl)) (Nat.le_succ_of_le h₃)
  · exact obeys_pure (Nat.lt_succ_self _)

theorem proceeds_operand (g : Bool) : Proceeds stop (.operand g) ts := by
  refine obeys_current_bind fun t p hhead => ?_
  dsimp only
  split
  · exact obeys_call (admits_lower (by simp) rfl (ready_of_head hhead rfl)) (Nat.le_refl _)
  · exact obeys_call (admits_lower (by simp) rfl (ready_of_head hhead rfl)) (Nat.le_refl _)
  · split
    · exact obeys_call (admits_lower (by simp) rfl (ready_of_opening rfl)) (Nat.le_refl _)
    · exact obeys_refuse _ p

theorem proceeds_group (h : Ready stop ⟨.group, ts⟩) : Proceeds stop .group ts := by
  refine obeys_opening_bind h rfl (by decide) fun t ts₁ h₁ => ?_
  refine obeys_call_bind rfl (admits_later h₁ (ready_of_opening rfl)) fun inner ts₂ h₂ => ?_
  refine obeys_expect_bind (by decide) fun ts₃ h₃ => ?_
  exact obeys_pure (by show ts₃.length < ts.length; omega)

theorem proceeds_markedCall {g : Bool} (h : Ready stop ⟨.markedCall g, ts⟩) :
    Proceeds stop (.markedCall g) ts := by
  refine obeys_opening_bind h rfl (by decide) fun t ts₁ h₁ => ?_
  refine obeys_call_bind rfl (admits_later h₁ (ready_of_opening rfl)) fun callee ts₂ h₂ => ?_
  refine obeys_expect_bind (by decide) fun ts₃ h₃ => ?_
  have hlt : ts₃.length < ts.length := by omega
  refine obeys_loop_bind (admits_later hlt (ready_of_opening rfl)) fun arguments ts₄ h₄ => ?_
  refine obeys_expect_bind (by decide) fun ts₅ h₅ => ?_
  exact obeys_pure (by show ts₅.length < ts.length; omega)

theorem proceeds_primary (g : Bool) : Proceeds stop (.primary g) ts := by
  refine obeys_current_bind fun t p hhead => ?_
  dsimp only
  split
  · refine obeys_call_bind rfl (admits_lower (by simp) rfl (ready_of_head hhead rfl))
      fun value ts₁ h₁ => ?_
    split
    · exact obeys_pure h₁
    · exact obeys_refuse _ p
  · exact obeys_skip_bind hhead (by simp) fun ts₁ h₁ => obeys_pure h₁
  · exact obeys_skip_bind hhead (by simp) fun ts₁ h₁ => obeys_pure h₁
  · exact obeys_call (admits_lower (by simp) rfl (ready_of_head hhead rfl)) (Nat.le_refl _)
  · refine obeys_call_bind rfl (admits_lower (by simp) rfl (ready_of_opening rfl))
      fun callee ts₁ h₁ => ?_
    refine obeys_current_bind fun next q _ => ?_
    dsimp only
    split
    · exact obeys_call (admits_later h₁ (ready_of_opening rfl)) (Nat.le_of_lt h₁)
    · exact obeys_pure h₁
  · exact obeys_refuse _ p

theorem proceeds_array {g : Bool} (h : Ready stop ⟨.array g, ts⟩) :
    Proceeds stop (.array g) ts := by
  refine obeys_opening_bind h rfl (by decide) fun t ts₁ h₁ => ?_
  refine obeys_loop_bind (admits_later h₁ (ready_of_opening rfl)) fun elements ts₂ h₂ => ?_
  refine obeys_expect_bind (by decide) fun ts₃ h₃ => ?_
  exact obeys_pure (by show ts₃.length < ts.length; omega)

theorem proceeds_namedCall (g : Bool) (callee : Name) :
    Proceeds stop (.namedCall g callee) ts := by
  refine obeys_expect_bind (by decide) fun ts₁ h₁ => ?_
  refine obeys_loop_bind (admits_later h₁ (ready_of_opening rfl)) fun arguments ts₂ h₂ => ?_
  refine obeys_expect_bind (by decide) fun ts₃ h₃ => ?_
  exact obeys_pure (by show ts₃.length < ts.length; omega)

theorem proceeds_items (g : Bool) (close : Token) : Proceeds stop (.items g close) ts := by
  refine obeys_current_bind fun t p hhead => ?_
  dsimp only
  split
  · exact obeys_pure (Nat.lt_succ_self _)
  · split
    · next heq =>
      refine obeys_skip_bind hhead (by simp [heq]) fun ts₁ h₁ => ?_
      exact obeys_call (admits_later h₁ (ready_of_opening rfl)) (Nat.le_succ_of_le h₁)
    · refine obeys_call_bind rfl (admits_lower (by simp) rfl (ready_of_opening rfl))
        fun item ts₁ h₁ => ?_
      refine obeys_loop_bind (admits_later h₁ (ready_of_opening rfl)) fun rest ts₂ h₂ => ?_
      exact obeys_pure (by show ts₂.length < ts.length + 1; omega)

/-! ### Statements -/

theorem obeys_binding {p : Procedure Node} {t : Token} {role : NameRole}
    {build : Name → Node → Position → Node} (h : Ready stop ⟨p, ts⟩) (hopening : p.opening = some t)
    (ht : t ≠ .endOfInput) :
    (binding role build).Obeys stop (Admits stop ⟨p, ts⟩) ts.length ts := by
  refine obeys_opening_bind h hopening ht fun u ts₁ h₁ => ?_
  refine obeys_call_bind rfl (admits_later h₁ (ready_of_opening rfl)) fun bound ts₂ h₂ => ?_
  refine obeys_expect_bind (by decide) fun ts₃ h₃ => ?_
  have hlt : ts₃.length < ts.length := by omega
  refine obeys_call_bind rfl (admits_later hlt (ready_of_opening rfl)) fun value ts₄ h₄ => ?_
  exact obeys_pure (Nat.lt_trans h₄ hlt)

theorem proceeds_branch (h : Ready stop ⟨.branch, ts⟩) : Proceeds stop .branch ts := by
  refine obeys_opening_bind h rfl (by decide) fun t ts₁ h₁ => ?_
  refine obeys_call_bind rfl (admits_later h₁ (ready_of_opening rfl)) fun condition ts₂ h₂ => ?_
  refine obeys_expect_bind (by decide) fun ts₃ h₃ => ?_
  have hthen : ts₃.length < ts.length := by omega
  refine obeys_loop_bind (admits_later hthen (ready_of_opening rfl)) fun consequent ts₄ h₄ => ?_
  refine obeys_current_bind fun next p hhead => ?_
  dsimp only
  split
  · next heq =>
    refine obeys_skip_bind hhead (by simp [heq]) fun ts₅ h₅ => ?_
    have helse : ts₅.length < ts.length := by omega
    refine obeys_loop_bind (admits_later helse (ready_of_opening rfl))
      fun alternative ts₆ h₆ => ?_
    refine obeys_expect_bind (by decide) fun ts₇ h₇ => ?_
    exact obeys_pure (by show ts₇.length < ts.length; omega)
  · refine obeys_expect_bind (by decide) fun ts₅ h₅ => ?_
    exact obeys_pure (by show ts₅.length < ts.length; omega)

theorem proceeds_loop (h : Ready stop ⟨.loop, ts⟩) : Proceeds stop .loop ts := by
  refine obeys_opening_bind h rfl (by decide) fun t ts₁ h₁ => ?_
  refine obeys_call_bind rfl (admits_later h₁ (ready_of_opening rfl)) fun condition ts₂ h₂ => ?_
  refine obeys_expect_bind (by decide) fun ts₃ h₃ => ?_
  have hbody : ts₃.length < ts.length := by omega
  refine obeys_loop_bind (admits_later hbody (ready_of_opening rfl)) fun body ts₄ h₄ => ?_
  refine obeys_expect_bind (by decide) fun ts₅ h₅ => ?_
  exact obeys_pure (by show ts₅.length < ts.length; omega)

theorem proceeds_parameters : Proceeds stop .parameters ts := by
  refine obeys_current_bind fun t p hhead => ?_
  dsimp only
  split
  · next heq =>
    refine obeys_skip_bind hhead (by simp [heq]) fun ts₁ h₁ => ?_
    refine obeys_call_bind rfl (admits_later h₁ (ready_of_opening rfl)) fun parameter ts₂ h₂ => ?_
    have hlt := Nat.lt_trans h₂ h₁
    refine obeys_loop_bind (admits_later hlt (ready_of_opening rfl)) fun rest ts₃ h₃ => ?_
    exact obeys_pure (by show ts₃.length < ts.length + 1; omega)
  · exact obeys_pure (Nat.lt_succ_self _)

theorem proceeds_definition (h : Ready stop ⟨.definition, ts⟩) :
    Proceeds stop .definition ts := by
  refine obeys_opening_bind h rfl (by decide) fun t ts₁ h₁ => ?_
  refine obeys_call_bind rfl (admits_later h₁ (ready_of_opening rfl)) fun defined ts₂ h₂ => ?_
  have hnamed := Nat.lt_trans h₂ h₁
  refine obeys_loop_bind (admits_later hnamed (ready_of_opening rfl)) fun parameters ts₃ h₃ => ?_
  refine obeys_expect_bind (by decide) fun ts₄ h₄ => ?_
  have hbody : ts₄.length < ts.length := by omega
  refine obeys_loop_bind (admits_later hbody (ready_of_opening rfl)) fun body ts₅ h₅ => ?_
  refine obeys_expect_bind (by decide) fun ts₆ h₆ => ?_
  exact obeys_pure (by show ts₆.length < ts.length; omega)

theorem proceeds_print (h : Ready stop ⟨.print, ts⟩) : Proceeds stop .print ts := by
  refine obeys_opening_bind h rfl (by decide) fun t ts₁ h₁ => ?_
  refine obeys_call_bind rfl (admits_later h₁ (ready_of_opening rfl)) fun value ts₂ h₂ => ?_
  exact obeys_pure (Nat.lt_trans h₂ h₁)

theorem proceeds_statement : Proceeds stop .statement ts := by
  refine obeys_current_bind fun t p hhead => ?_
  dsimp only
  split
  iterate 8
    · exact obeys_call (admits_lower (by simp) rfl (ready_of_head hhead rfl)) (Nat.le_refl _)
  iterate 7 · exact obeys_refuse _ p
  · exact obeys_call (admits_lower (by simp) rfl (ready_of_opening rfl)) (Nat.le_refl _)

theorem proceeds_block (closing : List Token) : Proceeds stop (.block closing) ts := by
  refine obeys_current_bind fun t p _ => ?_
  dsimp only
  split
  · exact obeys_pure (Nat.lt_succ_self _)
  · refine obeys_call_bind rfl (admits_lower (by simp) rfl (ready_of_opening rfl))
      fun statement ts₁ h₁ => ?_
    refine obeys_loop_bind (admits_later h₁ (ready_of_opening rfl)) fun rest ts₂ h₂ => ?_
    exact obeys_pure (by show ts₂.length < ts.length + 1; omega)

/-- Every procedure proceeds where it is ready. -/
theorem proceeds {α : Type} (p : Procedure α) (h : Ready stop ⟨p, ts⟩) :
    Proceeds stop p ts := by
  cases p with
  | block closing => exact proceeds_block closing
  | statement => exact proceeds_statement
  | declaration => exact obeys_binding h rfl (by decide)
  | assignment => exact obeys_binding h rfl (by decide)
  | branch => exact proceeds_branch h
  | loop => exact proceeds_loop h
  | definition => exact proceeds_definition h
  | parameters => exact proceeds_parameters
  | print => exact proceeds_print h
  | index => exact proceeds_index h
  | expression g => exact proceeds_expression g
  | chain g left => exact proceeds_chain g left
  | operand g => exact proceeds_operand g
  | group => exact proceeds_group h
  | markedCall g => exact proceeds_markedCall h
  | primary g => exact proceeds_primary g
  | array g => exact proceeds_array h
  | namedCall g callee => exact proceeds_namedCall g callee
  | items g close => exact proceeds_items g close
  | name role => exact proceeds_name role
  | symbols => exact proceeds_symbols
  | digits first => exact proceeds_digits h
  | moreDigits start value => exact proceeds_moreDigits start value

end Call

end Grammar

end Pictoscript
