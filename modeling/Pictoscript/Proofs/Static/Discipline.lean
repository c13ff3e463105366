import Pictoscript.Proofs.Static.Semantics

/-! # The discipline of scopes

What rendering may do to the scopes it works on, for all trees, also those that no
text spells, and for all scopes. However it ends, it comes back to the level where
it began, the frames around the current one are untouched, and the current frame
keeps its bindings. If it succeeds, it has bound in the current frame just the names
that are declared or defined outside the blocks of the tree. Every block that is
left was entered, so leaving one never fails.
-/

namespace Pictoscript

/-! ## Nodes outside blocks -/

mutual
/-- The nodes of a tree that lie in none of its branches, loop bodies and function
bodies. Each node comes behind those below it. -/
def Node.exposed : Node → List Node
  | .array elements p => Node.exposedAmong elements ++ [.array elements p]
  | .expression content p => content.exposed ++ [.expression content p]
  | .declaration name value p => value.exposed ++ [.declaration name value p]
  | .assignment target value p => value.exposed ++ [.assignment target value p]
  | .branch condition consequent alternative p =>
    condition.exposed ++ [.branch condition consequent alternative p]
  | .loop condition body p => condition.exposed ++ [.loop condition body p]
  | .call name arguments p => Node.exposedAmong arguments ++ [.call name arguments p]
  | .print value p => value.exposed ++ [.print value p]
  | n => [n]
def Expression.exposed : Expression → List Node
  | ⟨left, _, none, _, _⟩ => left.exposed
  | ⟨left, _, some right, _, _⟩ => left.exposed ++ right.exposed
def Node.exposedAmong : List Node → List Node
  | [] => []
  | n :: ns => n.exposed ++ Node.exposedAmong ns
end

namespace Static

open Rendering

/-! ## Steps -/

/-- What a step that began with the scopes `s` has left of them. The names are those
that it binds when it succeeds. -/
structure Disciplined {α : Type} (s : Scopes) (result : Except SemanticError α × Scopes)
    (names : List Name) : Prop where
  level : result.2.level = s.level
  outer : result.2.outer = s.outer
  kept : s.current.bindings <+: result.2.current.bindings
  bound : ∀ a, result.1 = .ok a →
    result.2.current.names = s.current.names ++ names.map Name.text
  balanced : result.1 ≠ .error .scopeUnderflow

variable {α β : Type} {s t : Scopes} {names others : List Name}

/-- A step that succeeds without touching the scopes. -/
theorem disciplined_ok (a : α) (s : Scopes) : Disciplined s (.ok a, s) [] where
  level := rfl
  outer := rfl
  kept := List.prefix_rfl
  bound := fun _ _ => by simp
  balanced := by simp

/-- A step that fails without touching the scopes. -/
theorem disciplined_error {e : SemanticError} (h : e ≠ .scopeUnderflow) (s : Scopes)
    (names : List Name) : Disciplined s ((.error e, s) : Except SemanticError α × Scopes) names where
  level := rfl
  outer := rfl
  kept := List.prefix_rfl
  bound := fun _ hok => by cases hok
  balanced := by simpa using h

/-- One step after another: the bindings of both add up. -/
theorem Disciplined.bind {r : Rendering α} {f : α → Rendering β}
    (h : Disciplined s (r s) names) (hf : ∀ a t, Disciplined t (f a t) others) :
    Disciplined s ((r >>= f) s) (names ++ others) := by
  rw [bind_apply]
  rcases hr : r s with ⟨result, t⟩
  rw [hr] at h
  cases result with
  | error e =>
      refine ⟨h.level, h.outer, h.kept, ?_, ?_⟩
      · intro b hb
        cases hb
      · intro he
        cases he
        exact h.balanced rfl
  | ok a =>
      have hsecond := hf a t
      refine ⟨hsecond.level.trans h.level, hsecond.outer.trans h.outer,
        h.kept.trans hsecond.kept, ?_, hsecond.balanced⟩
      intro b hb
      rw [hsecond.bound b hb, h.bound a rfl, List.map_append, List.append_assoc]

theorem Disciplined.map {r : Rendering α} (h : Disciplined s (r s) names) (g : α → β) :
    Disciplined s ((r >>= fun a => pure (g a)) s) names := by
  have hbind := h.bind fun a t => disciplined_ok (g a) t
  rwa [List.append_nil] at hbind

/-- A block is left with the very scopes that it was entered with. -/
theorem Disciplined.inBlock {r : Rendering α} (h : Disciplined s.enter (r s.enter) names) :
    Disciplined s (Rendering.inBlock r s) [] := by
  unfold Rendering.inBlock
  rcases hr : r s.enter with ⟨result, t⟩
  rw [hr] at h
  have hleave : t.leave = (.ok (), s) := by
    have houter : t.outer = s.current :: s.outer := h.outer
    rw [Scopes.leave, houter]
  simp only [hleave]
  exact ⟨rfl, rfl, List.prefix_rfl, fun _ _ => by simp, h.balanced⟩

theorem disciplined_requireBound (name : Name) (s : Scopes) :
    Disciplined s (requireBound name s) [] := by
  unfold requireBound
  split
  · exact disciplined_ok () s
  · exact disciplined_error (by simp) s []

theorem disciplined_requireFree (name : Name) (s : Scopes) :
    Disciplined s (requireFree name s) [] := by
  unfold requireFree
  split
  · exact disciplined_error (by simp) s []
  · exact disciplined_ok () s

theorem disciplined_bindName (name : Name) (kind : Binding.Kind) (value : String) (s : Scopes) :
    Disciplined s (bindName name kind value s) [name] := by
  unfold bindName Scopes.define
  by_cases htaken : (s.lookupCurrent name.text).isSome = true
  · rw [if_pos htaken]
    exact disciplined_error (by simp [SemanticError.ofScope]) s [name]
  · rw [if_neg htaken]
    exact ⟨rfl, rfl, List.prefix_append _ _, fun _ _ => by simp [Frame.names], by simp⟩

theorem disciplined_bindParameters : ∀ (parameters : List Name) (s : Scopes),
    Disciplined s (bindParameters parameters s) parameters
  | [], s => disciplined_ok () s
  | p :: ps, s =>
      (disciplined_bindName p .parameter p.text s).bind fun _ t => disciplined_bindParameters ps t

theorem disciplined_subscript (offset : Nat) (p : Position) (done : List Script.Fragment)
    (s : Scopes) : Disciplined s (ofExcept (Script.subscript offset p done) s) [] := by
  unfold Rendering.ofExcept
  cases done with
  | nil => exact disciplined_error (by simp [SemanticError.ofMisshape]) s []
  | cons last before =>
      by_cases hvalue : last.isValue = true
      · rw [Script.subscript, if_pos hvalue]
        exact disciplined_ok _ s
      · rw [Script.subscript, if_neg hvalue]
        exact disciplined_error (by simp [SemanticError.ofMisshape]) s []

theorem disciplined_fail (m : Misshape) (p : Position) (s : Scopes) (names : List Name) :
    Disciplined s ((fail (.ofMisshape m p) : Rendering α) s) names :=
  disciplined_error (by simp [SemanticError.ofMisshape]) s names

/-! ## Trees -/

def boundBy (ns : List Node) : List Name := ns.flatMap introduced

theorem boundBy_append (ms ns : List Node) : boundBy (ms ++ ns) = boundBy ms ++ boundBy ns :=
  List.flatMap_append

variable (sink : Sink)

mutual
theorem disciplined_node : ∀ (n : Node) (s : Scopes),
    Disciplined s (Script.node sink n s) (boundBy n.exposed)
  | .number _ _, s => disciplined_ok _ s
  | .text _ _, s => disciplined_ok _ s
  | .boolean _ _, s => disciplined_ok _ s
  | .variable _ _, s => disciplined_ok _ s
  | .array elements _, s => by
      rw [Node.exposed, boundBy_append]
      exact (disciplined_members elements [] s).bind fun _ t => disciplined_ok _ t
  | .expression content _, s => by
      rw [Node.exposed, boundBy_append]
      show Disciplined s _ (boundBy content.exposed ++ [])
      rw [List.append_nil]
      exact disciplined_expression content s
  | .declaration name value _, s => by
      rw [Node.exposed, boundBy_append]
      refine (disciplined_node value s).bind fun text t => ?_
      exact (disciplined_bindName name .variable text t).map _
  | .assignment _ value _, s => by
      rw [Node.exposed, boundBy_append]
      exact (disciplined_node value s).bind fun _ t => disciplined_ok _ t
  | .branch condition consequent none _, s => by
      rw [Node.exposed, boundBy_append]
      refine (disciplined_expression condition s).bind fun _ t => ?_
      exact (disciplined_members consequent [] t.enter).inBlock.map _
  | .branch condition consequent (some alternative) _, s => by
      rw [Node.exposed, boundBy_append]
      refine (disciplined_expression condition s).bind fun _ t => ?_
      show Disciplined t _ ([] ++ [])
      refine (disciplined_members consequent [] t.enter).inBlock.bind fun _ u => ?_
      exact (disciplined_members alternative [] u.enter).inBlock.map _
  | .loop condition body _, s => by
      rw [Node.exposed, boundBy_append]
      refine (disciplined_expression condition s).bind fun _ t => ?_
      exact (disciplined_members body [] t.enter).inBlock.map _
  | .definition name parameters body _, s => by
      show Disciplined s _ ([] ++ ([name] ++ []))
      refine (disciplined_requireFree name s).bind fun _ t => ?_
      refine (disciplined_bindName name .function name.text t).bind fun _ u => ?_
      have hbody : Disciplined u.enter _ (parameters ++ _) :=
        (disciplined_bindParameters parameters u.enter).bind fun _ v =>
          disciplined_members body [] v
      exact hbody.inBlock.map _
  | .call name arguments _, s => by
      rw [Node.exposed, boundBy_append]
      refine (disciplined_requireBound name s).bind fun _ t => ?_
      exact (disciplined_members arguments [] t).bind fun _ u => disciplined_ok _ u
  | .index _ p, s => disciplined_fail _ p s _
  | .print value _, s => by
      rw [Node.exposed, boundBy_append]
      exact (disciplined_node value s).bind fun _ t => disciplined_ok _ t
theorem disciplined_expression : ∀ (e : Expression) (s : Scopes),
    Disciplined s (Script.expression sink e s) (boundBy e.exposed)
  | ⟨left, none, none, _, _⟩, s => (disciplined_node left s).map _
  | ⟨_, none, some _, _, q⟩, s => disciplined_fail _ q s _
  | ⟨left, some op, none, _, q⟩, s => by
      cases op with
      | not => exact (disciplined_node left s).map _
      | _ => exact disciplined_fail _ q s _
  | ⟨left, some op, some right, _, q⟩, s => by
      by_cases hop : op = .not
      · subst hop
        exact disciplined_fail _ q s _
      · rw [Script.expression_of_ne_not hop, Expression.exposed, boundBy_append]
        refine (disciplined_node left s).bind fun _ t => ?_
        exact (disciplined_node right t).map _
/-- Members are rendered one after the other, each on the scopes that the ones before
it left. -/
theorem disciplined_members : ∀ (ns : List Node) (done : List Script.Fragment) (s : Scopes),
    Disciplined s (Script.members sink done ns s) (boundBy (Node.exposedAmong ns))
  | [], done, s => disciplined_ok done s
  | n :: ns, done, s => by
      rw [Node.exposedAmong, boundBy_append]
      cases hindex : n.isIndex with
      | false =>
          rw [Script.members_cons hindex]
          exact (disciplined_node n s).bind fun text t =>
            disciplined_members ns (⟨text, n.isValue⟩ :: done) t
      | true =>
          cases n with
          | index offset p =>
              refine (disciplined_subscript offset p done s).bind fun done' t => ?_
              exact disciplined_members ns done' t
          | _ => cases hindex
end

/-- **Rendering keeps the discipline of scopes**, for every node, expression, list
behind any fragments and block, on all scopes and whether it succeeds or fails. -/
theorem disciplined_rendering (s : Scopes) :
    (∀ n, Disciplined s (Script.node sink n s) (boundBy n.exposed)) ∧
      (∀ e, Disciplined s (Script.expression sink e s) (boundBy e.exposed)) ∧
      (∀ done ns, Disciplined s (Script.members sink done ns s)
        (boundBy (Node.exposedAmong ns))) ∧
      ∀ ns, Disciplined s
        ((do let fragments ← Script.members sink [] ns; return Script.sequence fragments) s)
        (boundBy (Node.exposedAmong ns)) := by
  refine ⟨?_, ?_, ?_, ?_⟩
  · intro n
    exact disciplined_node sink n s
  · intro e
    exact disciplined_expression sink e s
  · intro done ns
    exact disciplined_members sink ns done s
  · intro ns
    exact (disciplined_members sink ns [] s).map Script.sequence

/-- A tree that no text spells: the declaration inside an array binds its name in the
current frame, the one inside the loop does not. -/
example : boundBy (Node.array [.declaration ⟨"🍉", ⟨1, 3⟩⟩ (.number 1 ⟨1, 7⟩) ⟨1, 1⟩,
    .loop (.ofOperand (.boolean true ⟨2, 3⟩))
      [.declaration ⟨"🍇", ⟨2, 9⟩⟩ (.number 2 ⟨2, 13⟩) ⟨2, 7⟩] ⟨2, 1⟩] ⟨1, 1⟩).exposed =
    [⟨"🍉", ⟨1, 3⟩⟩] := by
  decide

end Static

end Pictoscript
