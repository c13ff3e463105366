import Pictoscript.Compile
import Pictoscript.Proofs.Rendering
import Pictoscript.Proofs.Static.Violations

/-! # Rendering and the static rules

Rendering a tree walks through it once, with a stack of frames, and ends at the
first error. Here it is compared with the offences of the tree: the rendering of
a tree that was read ends in the first offence of the walk, or in a script if
there is none. The frames hold just the visible names at every moment, and a
step that fails leaves the frames around the current one alone.
-/

namespace Pictoscript

namespace Static

open Rendering

/-! ## Frames and visible names -/

def contextOf (s : Scopes) : Context := ⟨s.outer.flatMap Frame.names, s.current.names⟩

theorem lookup_isSome_iff {frame : Frame} {name : String} :
    (frame.lookup name).isSome = true ↔ name ∈ frame.names := by
  simp [Frame.lookup, Frame.names]

theorem lookupCurrent_isSome_iff {s : Scopes} {name : String} :
    (s.lookupCurrent name).isSome = true ↔ name ∈ (contextOf s).here := lookup_isSome_iff

theorem scopes_lookup_isSome_iff {s : Scopes} {name : String} :
    (s.lookup name).isSome = true ↔ name ∈ (contextOf s).visible := by
  have hframes : ∀ frames : List Frame,
      (frames.findSome? fun frame => frame.lookup name).isSome = true ↔
        name ∈ frames.flatMap Frame.names := by
    intro frames
    rw [List.findSome?_isSome_iff, List.mem_flatMap]
    simp only [lookup_isSome_iff]
  rw [Scopes.lookup, hframes]
  simp [contextOf, Context.visible]

theorem contextOf_enter (s : Scopes) : contextOf s.enter = (contextOf s).inner := by
  simp [contextOf, Scopes.enter, Context.inner, Context.visible, Frame.names]

/-- The second scopes are the first ones with these names bound in addition. -/
structure Extended (s t : Scopes) (names : List Name) : Prop where
  outer : t.outer = s.outer
  current : t.current.names = s.current.names ++ names.map Name.text

theorem Extended.refl (s : Scopes) : Extended s s [] := ⟨rfl, by simp⟩

theorem Extended.contextOf {s t : Scopes} {names : List Name} (h : Extended s t names) :
    contextOf t = (contextOf s).add names := by
  simp [Static.contextOf, Context.add, h.outer, h.current]

theorem Extended.contextOf_nil {s t : Scopes} (h : Extended s t []) :
    Static.contextOf t = Static.contextOf s := by
  simpa [Context.add] using h.contextOf

theorem Extended.trans {s t u : Scopes} {names more : List Name} (h : Extended s t names)
    (h' : Extended t u more) : Extended s u (names ++ more) :=
  ⟨h'.outer.trans h.outer, by simp [h'.current, h.current]⟩

/-! ## Steps and their errors -/

/-- A step from the scopes `s` ends in the first of the errors. If there is none
it succeeds and binds the names. -/
def Ends {α : Type} (s : Scopes) (result : Except SemanticError α × Scopes)
    (errors : List SemanticError) (names : List Name) : Prop :=
  match errors with
  | [] => ∃ a t, result = (.ok a, t) ∧ Extended s t names
  | e :: _ => ∃ t, result = (.error e, t) ∧ t.outer = s.outer

variable {α β : Type} {s : Scopes} {errors more : List SemanticError} {names others : List Name}

theorem ends_pure (a : α) : Ends s ((pure a : Rendering α) s) [] [] := ⟨a, s, rfl, .refl s⟩

theorem ends_fail {e : SemanticError} :
    Ends s ((fail e : Rendering α) s) (e :: errors) names := ⟨s, rfl, rfl⟩

/-- One step after another: the errors of the second come behind those of the
first, and matter only if the first has none. -/
theorem Ends.bind {r : Rendering α} {f : α → Rendering β} (h : Ends s (r s) errors names)
    (hf : errors = [] → ∀ a t, Extended s t names → Ends t (f a t) more others) :
    Ends s ((r >>= f) s) (errors ++ more) (names ++ others) := by
  rw [bind_apply]
  cases errors with
  | cons e errors =>
      obtain ⟨t, hr, ht⟩ := h
      rw [hr]
      exact ⟨t, rfl, ht⟩
  | nil =>
      obtain ⟨a, t, hr, ht⟩ := h
      rw [hr]
      have hsecond := hf rfl a t ht
      cases more with
      | cons e more =>
          obtain ⟨u, hu, houter⟩ := hsecond
          exact ⟨u, hu, houter.trans ht.outer⟩
      | nil =>
          obtain ⟨b, u, hu, hextended⟩ := hsecond
          exact ⟨b, u, hu, ht.trans hextended⟩

theorem Ends.map {r : Rendering α} {g : α → β} (h : Ends s (r s) errors names) :
    Ends s ((r >>= fun a => pure (g a)) s) errors names := by
  have hbind : Ends s ((r >>= fun a => pure (g a)) s) (errors ++ []) (names ++ []) :=
    h.bind fun _ a t _ => ends_pure (g a)
  simpa using hbind

/-- A block is left with the scopes that it was entered with. -/
theorem Ends.inBlock {r : Rendering α} (h : Ends s.enter (r s.enter) errors names) :
    Ends s (inBlock r s) errors [] := by
  cases errors with
  | nil =>
      obtain ⟨a, t, hr, ht⟩ := h
      refine ⟨a, s, ?_, .refl s⟩
      rw [Rendering.inBlock, hr]
      simp only [Scopes.leave, ht.outer, Scopes.enter]
  | cons e errors =>
      obtain ⟨t, hr, ht⟩ := h
      refine ⟨s, ?_, rfl⟩
      rw [Rendering.inBlock, hr]
      simp only [Scopes.leave, ht, Scopes.enter]

theorem ends_bindName (name : Name) (kind : Binding.Kind) (value : String) :
    Ends s (bindName name kind value s)
      (if name.text ∈ (contextOf s).here then [duplicate name] else []) [name] := by
  rw [bindName, Scopes.define]
  by_cases htaken : name.text ∈ (contextOf s).here
  · rw [if_pos (lookupCurrent_isSome_iff.mpr htaken), if_pos htaken]
    exact ⟨s, rfl, rfl⟩
  · rw [if_neg fun h => htaken (lookupCurrent_isSome_iff.mp h), if_neg htaken]
    exact ⟨(), _, rfl, rfl, by simp [Frame.names]⟩

theorem ends_requireFree (name : Name) :
    Ends s (requireFree name s)
      (if name.text ∈ (contextOf s).visible then [duplicate name] else []) [] := by
  rw [requireFree]
  by_cases hvisible : name.text ∈ (contextOf s).visible
  · rw [if_pos (scopes_lookup_isSome_iff.mpr hvisible), if_pos hvisible]
    exact ⟨s, rfl, rfl⟩
  · rw [if_neg fun h => hvisible (scopes_lookup_isSome_iff.mp h), if_neg hvisible]
    exact ⟨(), s, rfl, .refl s⟩

theorem ends_requireBound (name : Name) :
    Ends s (requireBound name s)
      (if name.text ∈ (contextOf s).visible then []
        else [.unresolvedReference name.text name.position]) [] := by
  rw [requireBound]
  by_cases hvisible : name.text ∈ (contextOf s).visible
  · rw [if_pos (scopes_lookup_isSome_iff.mpr hvisible), if_pos hvisible]
    exact ⟨(), s, rfl, .refl s⟩
  · rw [if_neg fun h => hvisible (scopes_lookup_isSome_iff.mp h), if_neg hvisible]
    exact ⟨s, rfl, rfl⟩

theorem ends_bindParameters : ∀ (parameters : List Name) (s : Scopes),
    Ends s (bindParameters parameters s) (ofParameters (contextOf s).here parameters) parameters
  | [], s => ends_pure ()
  | name :: parameters, s => by
      refine (ends_bindName name .parameter name.text).bind fun _ _ t ht => ?_
      have hhere : (contextOf t).here = (contextOf s).here ++ [name.text] := by
        rw [ht.contextOf]
        rfl
      rw [← hhere]
      exact ends_bindParameters parameters t

/-! ## Trees -/

variable {σ : Shape} {sink : Sink}

/-- May a subscript follow the fragments, which come last first? -/
def receivesFragment (done : List Script.Fragment) : Bool :=
  done.head?.any Script.Fragment.isValue

/-- A subscript goes to the last fragment, if that is a value. -/
theorem ends_subscript {offset : Nat} {q : Position} {done : List Script.Fragment}
    {f : List Script.Fragment → Rendering β}
    (hf : ∀ done', receivesFragment done' = true → receivesFragment done = true →
      Ends s (f done' s) errors names) :
    Ends s ((ofExcept (Script.subscript offset q done) >>= f) s)
      ((if receivesFragment done then [] else [looseIndex q]) ++ errors) names := by
  cases done with
  | nil => exact ⟨s, rfl, rfl⟩
  | cons last done =>
      rw [bind_apply, Rendering.ofExcept, Script.subscript, receivesFragment, List.head?_cons,
        Option.any_some]
      cases hvalue : last.isValue with
      | false => exact ⟨s, rfl, rfl⟩
      | true => exact hf _ rfl hvalue

theorem Ends.of_value {n : Node} {place : Place} {result : Except SemanticError α × Scopes}
    (h : Ends s result errors (introduced n)) (hplace : place ≠ .statement)
    (hn : σ.node place n = true) : Ends s result errors [] := by
  rwa [introduced_of_ne_statement hplace hn] at h

theorem Ends.of_items {ns : List Node} {result : Except SemanticError α × Scopes}
    (h : Ends s result errors (ns.flatMap introduced)) (hns : σ.items ns = true) :
    Ends s result errors [] := by
  rwa [introduced_of_items hns] at h

/-- The body of a function is rendered in a block that has its parameters. -/
theorem ends_functionBody {Γ : Context} {name : Name} {parameters : List Name} {body : List Node}
    (hs : contextOf s = Γ.add [name])
    (hbody : ∀ t, Ends t (Script.members sink [] body t) (ofMembers (contextOf t) false body)
      (body.flatMap introduced)) :
    Ends s (inBlock (do bindParameters parameters; Script.members sink [] body) s)
      (ofParameters [] parameters ++ ofMembers (Γ.within name parameters) false body) [] := by
  have hinner : contextOf s.enter = (Γ.add [name]).inner := by
    rw [contextOf_enter, hs]
  have hparameters := ends_bindParameters parameters s.enter
  rw [hinner] at hparameters
  have hmembers : ∀ t, Extended s.enter t parameters →
      Ends t (Script.members sink [] body t) (ofMembers (Γ.within name parameters) false body)
        (body.flatMap introduced) := by
    intro t ht
    have hwithin : contextOf t = Γ.within name parameters := by
      rw [ht.contextOf, hinner]
      rfl
    rw [← hwithin]
    exact hbody t
  exact Ends.inBlock (hparameters.bind fun _ _ t ht => hmembers t ht)

mutual
/-- A node ends in its first offence or binds the names that it introduces. -/
theorem ends_node : ∀ (n : Node) (place : Place) (s : Scopes), σ.node place n = true →
    Ends s (Script.node sink n s) (ofNode (contextOf s) n) (introduced n)
  | .number _ _, _, s, _ => ends_pure _
  | .text _ _, _, s, _ => ends_pure _
  | .boolean _ _, _, s, _ => ends_pure _
  | .variable _ _, _, s, _ => ends_pure _
  | .array elements _, place, s, h => by
      have helements := ends_members elements [] s (Shape.exists_place_of_items h)
      exact (helements.of_items h).map
  | .expression content _, place, s, h => by
      simp only [Shape.node, Bool.and_eq_true] at h
      exact ends_expression content s h.2
  | .declaration name value _, place, s, h => by
      simp only [Shape.node, Bool.and_eq_true] at h
      refine ((ends_node value .whole s h.2).of_value (by decide) h.2).bind fun _ text t ht => ?_
      rw [← ht.contextOf_nil]
      exact (ends_bindName name .variable text).map
  | .assignment target value _, place, s, h => by
      simp only [Shape.node, Bool.and_eq_true] at h
      exact ((ends_node value .whole s h.2).of_value (by decide) h.2).map
  | .branch condition consequent none _, place, s, h => by
      simp only [Shape.node, Bool.and_eq_true] at h
      refine (ends_expression condition s h.1.2).bind fun _ test t ht => ?_
      rw [← ht.contextOf_nil, ← contextOf_enter]
      exact (ends_members consequent [] t.enter (Shape.exists_place_of_block h.2)).inBlock.map
  | .branch condition consequent (some alternative) _, place, s, h => by
      simp only [Shape.node, Bool.and_eq_true] at h
      refine (ends_expression condition s h.1.1.2).bind fun _ test t ht => ?_
      rw [← ht.contextOf_nil, ← contextOf_enter]
      have hconsequent := ends_members consequent [] t.enter (Shape.exists_place_of_block h.1.2)
      refine hconsequent.inBlock.bind fun _ fragments u hu => ?_
      rw [contextOf_enter, ← hu.contextOf_nil, ← contextOf_enter]
      exact (ends_members alternative [] u.enter (Shape.exists_place_of_block h.2)).inBlock.map
  | .loop condition body _, place, s, h => by
      simp only [Shape.node, Bool.and_eq_true] at h
      refine (ends_expression condition s h.1.2).bind fun _ test t ht => ?_
      rw [← ht.contextOf_nil, ← contextOf_enter]
      exact (ends_members body [] t.enter (Shape.exists_place_of_block h.2)).inBlock.map
  | .definition name parameters body _, place, s, h => by
      simp only [Shape.node, Bool.and_eq_true] at h
      rw [introduced, ← List.nil_append [name]]
      refine (ends_requireFree name).bind fun hfree _ t ht => ?_
      -- A name that is not visible is not bound in the block either: the second check
      -- never fails.
      have hunbound : name.text ∉ (contextOf t).here := by
        rw [ht.contextOf_nil]
        intro htaken
        simp [Context.mem_visible_of_here htaken] at hfree
      have hbound := ends_bindName (s := t) name .function name.text
      rw [if_neg hunbound] at hbound
      rw [← List.append_nil [name]]
      refine hbound.bind fun _ _ u hu => ?_
      have hcontext : contextOf u = (contextOf s).add [name] := by
        rw [hu.contextOf, ht.contextOf_nil]
      exact (ends_functionBody hcontext fun v =>
        ends_members body [] v (Shape.exists_place_of_block h.2)).map
  | .call name arguments _, place, s, h => by
      simp only [Shape.node, Bool.and_eq_true] at h
      refine (ends_requireBound name).bind fun _ _ t ht => ?_
      rw [← ht.contextOf_nil]
      exact ((ends_members arguments [] t (Shape.exists_place_of_items h.2)).of_items h.2).map
  | .index _ _, _, s, _ => ends_fail
  | .print value _, place, s, h => by
      simp only [Shape.node, Bool.and_eq_true] at h
      exact ((ends_node value .whole s h.2).of_value (by decide) h.2).map
theorem ends_expression : ∀ (e : Expression) (s : Scopes), σ.expression e = true →
    Ends s (Script.expression sink e s) (ofExpression (contextOf s) e) []
  | ⟨left, none, none, _, _⟩, s, h =>
      ((ends_node left .wrapped s h).of_value (by decide) h).map
  | ⟨left, some .not, none, _, _⟩, s, h =>
      ((ends_node left .left s h).of_value (by decide) h).map
  | ⟨left, some op, some right, _, _⟩, s, h => by
      rw [Shape.expression_joined, Bool.and_eq_true, Bool.and_eq_true] at h
      by_cases hop : op = .not
      -- The offence of the expression itself comes before those of its operands.
      · rw [hop]
        exact ends_fail
      · rw [Script.expression_of_ne_not hop, ofExpression, if_neg (by simpa using hop),
          List.nil_append]
        refine ((ends_node left .left s h.1.2).of_value (by decide) h.1.2).bind
          fun _ first t ht => ?_
        rw [← ht.contextOf_nil]
        exact ((ends_node right .right t h.2).of_value (by decide) h.2).map
/-- Members are rendered one after the other, each in the scopes that the ones
before it left. -/
theorem ends_members : ∀ (ns : List Node) (done : List Script.Fragment) (s : Scopes),
    (∀ n ∈ ns, ∃ place, σ.node place n = true) →
    Ends s (Script.members sink done ns s)
      (ofMembers (contextOf s) (receivesFragment done) ns) (ns.flatMap introduced)
  | [], done, s, _ => ends_pure done
  | n :: ns, done, s, h => by
      obtain ⟨place, hn⟩ := h n (List.mem_cons_self ..)
      have hns : ∀ m ∈ ns, ∃ place, σ.node place m = true :=
        fun m hm => h m (List.mem_cons_of_mem n hm)
      cases hindex : n.isIndex with
      | false =>
          rw [Script.members_cons hindex, ofMembers_cons, ofMember_of_not_isIndex hindex, hindex,
            List.flatMap_cons]
          refine (ends_node n place s hn).bind fun _ text t ht => ?_
          have hafter : contextOf t = (contextOf s).after [n] := by
            rw [ht.contextOf]
            simp [Context.after]
          rw [← hafter]
          exact ends_members ns (⟨text, n.isValue⟩ :: done) t hns
      | true =>
          cases n with
          | index offset q =>
              refine ends_subscript fun done' hdone' hdone => ?_
              rw [hdone, ← hdone']
              exact ends_members ns done' s hns
          | _ => cases hindex
end

end Static

/-! ## Programs -/

/-- The script of a program depends on its offences alone: there is one if there
are none, and otherwise the first one is the error. -/
theorem Program.script_of_shape {σ : Shape} {p : Program} (h : σ.block p.statements = true)
    (sink : Sink) :
    match p.violations with
    | [] => ∃ text, p.script sink = .ok text
    | e :: _ => p.script sink = .error e := by
  have hends : Static.Ends .global (Script.members sink [] p.statements .global)
      (Static.root p).violations (p.statements.flatMap Static.introduced) :=
    Static.ends_members p.statements [] .global (Shape.exists_place_of_block h)
  rw [Program.violations, Program.script]
  cases hviolations : (Static.root p).violations with
  | nil =>
      rw [hviolations] at hends
      obtain ⟨fragments, t, hmembers, -⟩ := hends
      rw [hmembers]
      exact ⟨_, rfl⟩
  | cons e es =>
      rw [hviolations] at hends
      obtain ⟨t, hmembers, -⟩ := hends
      rw [hmembers]

/-- **The static rules are exact.** A program that was read has a script if and
only if it is meaningful. If it is not, the error is the first offence of the
walk, and the walk meets all the offences and nothing else. -/
theorem Program.script_exact {source : String} {p : Program}
    (h : Program.ofSource source = .ok p) (sink : Sink) :
    ((∃ text, p.script sink = .ok text) ↔ Static.Meaningful p) ∧
      (∀ e, p.script sink = .error e ↔ p.violations.head? = some e) ∧
      ∀ e, e ∈ p.violations ↔ Static.Reports (Static.root p) e := by
  have hshape := Shape.block_of_ofSource h
  have hscript := Program.script_of_shape hshape sink
  have hreports : ∀ e, e ∈ p.violations ↔ Static.Reports (Static.root p) e := by
    intro e
    exact Static.mem_violations_iff (P := Static.root p) hshape
  refine ⟨?_, ?_, hreports⟩
  · rw [Static.meaningful_iff hshape]
    simp only [← hreports]
    cases hviolations : p.violations with
    | nil => simpa [hviolations] using hscript
    | cons e es =>
        rw [hviolations] at hscript
        simp only [hscript, reduceCtorEq, exists_false, false_iff, not_forall, not_not]
        exact ⟨e, List.mem_cons_self ..⟩
  · intro e
    cases hviolations : p.violations with
    | nil =>
        rw [hviolations] at hscript
        obtain ⟨text, htext⟩ := hscript
        simp [htext]
    | cons first es =>
        rw [hviolations] at hscript
        simp [hscript]

/-- A call of a name that is introduced only later, and a name that is declared
twice: two offences, of which the first is reported. -/
theorem Program.script_exact_call : ∃ p,
    Program.ofSource "🍉 🫑 🍴 📝 🍉 👉 1️⃣ 📝 🍉 👉 2️⃣" = .ok p ∧
      p.violations = [.unresolvedReference "🍉" ⟨1, 1⟩, .duplicateDeclaration "🍉" ⟨1, 19⟩] ∧
      p.script .plain = .error (.unresolvedReference "🍉" ⟨1, 1⟩) := by
  have htokens : tokenize "🍉 🫑 🍴 📝 🍉 👉 1️⃣ 📝 🍉 👉 2️⃣" =
      ⟨[⟨.symbol "🍉", ⟨1, 1⟩⟩, ⟨.callStart, ⟨1, 3⟩⟩, ⟨.callEnd, ⟨1, 5⟩⟩, ⟨.declare, ⟨1, 7⟩⟩,
        ⟨.symbol "🍉", ⟨1, 9⟩⟩, ⟨.arrow, ⟨1, 11⟩⟩, ⟨.digit 1, ⟨1, 13⟩⟩, ⟨.declare, ⟨1, 17⟩⟩,
        ⟨.symbol "🍉", ⟨1, 19⟩⟩, ⟨.arrow, ⟨1, 21⟩⟩, ⟨.digit 2, ⟨1, 23⟩⟩], ⟨1, 26⟩⟩ := by
    decide +kernel
  let program : Program := ⟨[.call ⟨"🍉", ⟨1, 1⟩⟩ [] ⟨1, 1⟩,
    .declaration ⟨"🍉", ⟨1, 9⟩⟩ (.number 1 ⟨1, 13⟩) ⟨1, 7⟩,
    .declaration ⟨"🍉", ⟨1, 19⟩⟩ (.number 2 ⟨1, 23⟩) ⟨1, 17⟩], ⟨1, 1⟩⟩
  have hread : Program.ofSource "🍉 🫑 🍴 📝 🍉 👉 1️⃣ 📝 🍉 👉 2️⃣" = .ok program := by
    rw [Program.ofSource, htokens]
    rfl
  have hviolations : program.violations =
      [.unresolvedReference "🍉" ⟨1, 1⟩, .duplicateDeclaration "🍉" ⟨1, 19⟩] := by
    decide +kernel
  refine ⟨program, hread, hviolations, ?_⟩
  exact ((Program.script_exact hread .plain).2.1 _).mpr (by rw [hviolations]; rfl)

end Pictoscript
