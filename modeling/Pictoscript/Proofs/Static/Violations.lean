import Pictoscript.Proofs.Static.Visibility

/-! # Offences in order

All offences of a program in the order of a walk through its tree, as a list of
the errors that report them. The walk takes parts as they are written, with three
exceptions. The value of a declaration comes before its name, a `🚫` with a right
operand comes before both of its operands, and the name of a called or defined
function comes before anything else in the call or the definition.

The walk goes on behind an offence, and a name counts as introduced also if it
was taken. So the list holds each offence that `Offends` describes.
-/

namespace Pictoscript

namespace Static

/-! ## The walk -/

def duplicate (name : Name) : SemanticError := .duplicateDeclaration name.text name.position

def looseIndex (q : Position) : SemanticError := .ofMisshape .indexWithoutValue q

def ofParameters (taken : List String) : List Name → List SemanticError
  | [] => []
  | name :: names =>
    (if name.text ∈ taken then [duplicate name] else []) ++
      ofParameters (taken ++ [name.text]) names

mutual
def ofNode (Γ : Context) : Node → List SemanticError
  | .number _ _ | .text _ _ | .boolean _ _ | .variable _ _ => []
  | .array elements _ => ofMembers Γ false elements
  | .expression content _ => ofExpression Γ content
  | .declaration name value _ =>
    ofNode Γ value ++ (if name.text ∈ Γ.here then [duplicate name] else [])
  | .assignment _ value _ => ofNode Γ value
  | .branch condition consequent none _ =>
    ofExpression Γ condition ++ ofMembers Γ.inner false consequent
  | .branch condition consequent (some alternative) _ =>
    ofExpression Γ condition ++
      (ofMembers Γ.inner false consequent ++ ofMembers Γ.inner false alternative)
  | .loop condition body _ => ofExpression Γ condition ++ ofMembers Γ.inner false body
  | .definition name parameters body _ =>
    (if name.text ∈ Γ.visible then [duplicate name] else []) ++
      (ofParameters [] parameters ++ ofMembers (Γ.within name parameters) false body)
  | .call name arguments _ =>
    (if name.text ∈ Γ.visible then []
      else [.unresolvedReference name.text name.position]) ++ ofMembers Γ false arguments
  | .index _ q => [looseIndex q]
  | .print value _ => ofNode Γ value
def ofExpression (Γ : Context) : Expression → List SemanticError
  | ⟨left, _, none, _, _⟩ => ofNode Γ left
  | ⟨left, op, some right, _, q⟩ =>
    (if op = some .not then [.ofMisshape .negationWithRight q] else []) ++
      (ofNode Γ left ++ ofNode Γ right)
/-- The flag tells whether a subscript at the front has a value before it. -/
def ofMembers (Γ : Context) (received : Bool) : List Node → List SemanticError
  | [] => []
  | .index _ q :: ns => (if received then [] else [looseIndex q]) ++ ofMembers Γ received ns
  | n :: ns => ofNode Γ n ++ ofMembers (Γ.after [n]) n.isValue ns
end

def Point.violations : Point → List SemanticError
  | ⟨Γ, .node _ n⟩ => ofNode Γ n
  | ⟨Γ, .expression e⟩ => ofExpression Γ e
  | ⟨Γ, .items ns⟩ | ⟨Γ, .block _ ns⟩ => ofMembers Γ false ns

end Static

def Program.violations (p : Program) : List SemanticError := (Static.root p).violations

namespace Static

/-! ## Lists -/

theorem mem_ofParameters {e : SemanticError} {names : List Name} : ∀ {taken : List String},
    e ∈ ofParameters taken names ↔ ∃ before name after, names = before ++ name :: after ∧
      name.text ∈ taken ++ before.map Name.text ∧ e = duplicate name := by
  induction names with
  | nil => simp [ofParameters]
  | cons name names ih =>
      intro taken
      rw [ofParameters, List.mem_append, ih]
      constructor
      · rintro (h | ⟨before, other, after, rfl, htaken, rfl⟩)
        · obtain ⟨htaken, rfl⟩ : name.text ∈ taken ∧ e = duplicate name := by simpa using h
          exact ⟨[], name, names, rfl, by simpa using htaken, rfl⟩
        · exact ⟨name :: before, other, after, rfl, by simpa using htaken, rfl⟩
      · rintro ⟨before, other, after, hnames, htaken, rfl⟩
        cases before with
        | nil =>
            obtain ⟨rfl, rfl⟩ := List.cons.inj hnames
            left
            rw [if_pos (by simpa using htaken)]
            exact List.mem_singleton_self _
        | cons first before =>
            obtain ⟨rfl, rfl⟩ := List.cons.inj hnames
            exact .inr ⟨before, other, after, rfl, by simpa using htaken, rfl⟩

/-- Is there a value for a subscript behind `before`? If there are only
subscripts, it is the one from before the list. -/
def receives (received : Bool) (before : List Node) : Bool :=
  ((receiver? before).map Node.isValue).getD received

theorem receives_nil (received : Bool) : receives received [] = received := rfl

theorem receives_cons (received : Bool) (n : Node) (before : List Node) :
    receives received (n :: before) =
      receives (if n.isIndex then received else n.isValue) before := by
  unfold receives receiver?
  rw [List.reverse_cons, List.find?_append]
  cases before.reverse.find? (fun n => !n.isIndex) with
  | some m => rfl
  | none => cases hn : n.isIndex <;> simp [hn]

theorem receives_false (before : List Node) :
    receives false before = (receiver? before).any Node.isValue := by
  unfold receives
  cases receiver? before <;> rfl

def ofMember (Γ : Context) (received : Bool) (n : Node) : List SemanticError :=
  match n with
  | .index _ q => if received then [] else [looseIndex q]
  | n => ofNode Γ n

theorem ofMembers_cons (Γ : Context) (received : Bool) (n : Node) (ns : List Node) :
    ofMembers Γ received (n :: ns) = ofMember Γ received n ++
      ofMembers (Γ.after [n]) (if n.isIndex then received else n.isValue) ns := by
  cases n with
  | index offset q =>
      have hafter : Γ.after [.index offset q] = Γ := by
        simp [Context.after, Context.add, introduced]
      rw [hafter]
      rfl
  | _ => rfl

/-- The offences of a list are those of its members, each in its own context. -/
theorem mem_ofMembers {e : SemanticError} {ns : List Node} : ∀ {Γ : Context} {received : Bool},
    e ∈ ofMembers Γ received ns ↔ ∃ before n after, ns = before ++ n :: after ∧
      e ∈ ofMember (Γ.after before) (receives received before) n := by
  induction ns with
  | nil => simp [ofMembers]
  | cons n ns ih =>
      intro Γ received
      rw [ofMembers_cons, List.mem_append, ih]
      constructor
      · rintro (h | ⟨before, m, after, rfl, h⟩)
        · exact ⟨[], n, ns, rfl, by simpa [receives_nil] using h⟩
        · refine ⟨n :: before, m, after, rfl, ?_⟩
          rwa [Context.after_cons, receives_cons]
      · rintro ⟨before, m, after, hns, h⟩
        cases before with
        | nil =>
            obtain ⟨rfl, rfl⟩ := List.cons.inj hns
            exact .inl (by simpa [receives_nil] using h)
        | cons first before =>
            obtain ⟨rfl, rfl⟩ := List.cons.inj hns
            rw [Context.after_cons, receives_cons] at h
            exact .inr ⟨before, m, after, rfl, h⟩

theorem introduced_of_items {σ : Shape} {ns : List Node} (h : σ.items ns = true) :
    ns.flatMap introduced = [] := by
  rw [List.flatMap_eq_nil_iff]
  intro n hn
  exact introduced_of_ne_statement (by decide) (Shape.items_iff.mp h n hn)

theorem after_of_items {σ : Shape} {Γ : Context} {before after : List Node}
    (h : σ.items (before ++ after) = true) : Γ.after before = Γ := by
  have hnone := introduced_of_items h
  rw [List.flatMap_append, List.append_eq_nil_iff] at hnone
  simp [Context.after, Context.add, hnone.1]

/-! ## One step of the walk -/

theorem Offends.mem_violations {P : Point} {e : SemanticError} (h : Offends P e) :
    e ∈ P.violations := by
  cases h with
  | negation => simp [Point.violations, ofExpression]
  | unlisted => exact List.mem_singleton_self _
  | @unreceived Γ s before after offset q list receiver =>
      have hmember : looseIndex q ∈ ofMembers Γ false (before ++ .index offset q :: after) := by
        refine mem_ofMembers.mpr ⟨before, _, after, rfl, ?_⟩
        rw [receives_false, receiver]
        exact List.mem_singleton_self _
      cases s with
      | items ns => cases list; exact hmember
      | block parameters ns => cases list; exact hmember
      | _ => cases list
  | unresolved invisible => simp [Point.violations, ofNode, invisible]
  | redeclared taken => simp [Point.violations, ofNode, taken, duplicate]
  | redefined taken => simp [Point.violations, ofNode, taken, duplicate]
  | @repeatedParameter Γ π name parameter before after body q taken =>
      have hparameter : duplicate parameter ∈ ofParameters [] (before ++ parameter :: after) :=
        mem_ofParameters.mpr ⟨before, parameter, after, rfl, by simpa using taken, rfl⟩
      simp only [Point.violations, ofNode, List.mem_append]
      exact .inr (.inl hparameter)

theorem ofMember_of_not_isIndex {Γ : Context} {received : Bool} {n : Node}
    (h : n.isIndex = false) : ofMember Γ received n = ofNode Γ n := by
  cases n with
  | index offset q => cases h
  | _ => rfl

theorem Child.mem_violations {σ : Shape} {P Q : Point} {e : SemanticError} (h : Child P Q)
    (hP : P.shaped σ = true) (he : e ∈ Q.violations) : e ∈ P.violations := by
  cases h with
  | @statement Γ ps before after n value =>
      refine mem_ofMembers.mpr ⟨before, n, after, rfl, ?_⟩
      rwa [ofMember_of_not_isIndex value]
  | @item Γ ns n mem value =>
      obtain ⟨before, after, rfl⟩ := List.append_of_mem mem
      refine mem_ofMembers.mpr ⟨before, n, after, rfl, ?_⟩
      rwa [ofMember_of_not_isIndex value, after_of_items hP]
  | elements => exact he
  | arguments => exact List.mem_append_right _ he
  | content => exact he
  | @wrapped Γ n right g q =>
      cases right with
      | none => exact he
      | some right => exact List.mem_append_right _ (List.mem_append_left _ he)
  | @left Γ n op right g q =>
      cases right with
      | none => exact he
      | some right => exact List.mem_append_right _ (List.mem_append_left _ he)
  | right => exact List.mem_append_right _ (List.mem_append_right _ he)
  | declared => exact List.mem_append_left _ he
  | assigned => exact he
  | printed => exact he
  | @tested Γ π condition consequent alternative q =>
      cases alternative <;> exact List.mem_append_left _ he
  | @consequent Γ π condition consequent alternative q =>
      cases alternative with
      | none => exact List.mem_append_right _ he
      | some alternative => exact List.mem_append_right _ (List.mem_append_left _ he)
  | alternative => exact List.mem_append_right _ (List.mem_append_right _ he)
  | repeated => exact List.mem_append_left _ he
  | loopBody => exact List.mem_append_right _ he
  | functionBody => exact List.mem_append_right _ (List.mem_append_right _ he)

/-- An offence found in a list belongs to a subscript or to a member below it. -/
theorem offends_or_child_of_members {σ : Shape} {Γ : Context} {s : Site} {ns : List Node}
    {e : SemanticError} (hs : s = .items ns ∨ ∃ parameters, s = .block parameters ns)
    (hP : (⟨Γ, s⟩ : Point).shaped σ = true) (hlist : e ∈ ofMembers Γ false ns) :
    Offends ⟨Γ, s⟩ e ∨ ∃ Q, Child ⟨Γ, s⟩ Q ∧ e ∈ Q.violations := by
  obtain ⟨before, n, after, rfl, he⟩ := mem_ofMembers.mp hlist
  cases hn : n.isIndex with
  | true =>
      cases n with
      | index offset q =>
          left
          cases hreceived : receives false before with
          | true => simp [hreceived, ofMember] at he
          | false =>
              obtain rfl : e = looseIndex q := by simpa [hreceived, ofMember] using he
              have hlist : s.members? = some (before ++ .index offset q :: after) := by
                rcases hs with rfl | ⟨parameters, rfl⟩ <;> rfl
              rw [receives_false] at hreceived
              exact .unreceived hlist hreceived
      | _ => cases hn
  | false =>
      rw [ofMember_of_not_isIndex hn] at he
      right
      rcases hs with rfl | ⟨parameters, rfl⟩
      · rw [after_of_items hP] at he
        exact ⟨_, .item (by simp) hn, he⟩
      · exact ⟨_, .statement hn, he⟩

theorem offends_or_child_of_expression {Γ : Context} {e : SemanticError} {x : Expression}
    (he : e ∈ ofExpression Γ x) :
    Offends ⟨Γ, .expression x⟩ e ∨ ∃ Q, Child ⟨Γ, .expression x⟩ Q ∧ e ∈ Q.violations := by
  obtain ⟨left, op, right, g, q⟩ := x
  have hleft : e ∈ ofNode Γ left →
      ∃ Q, Child ⟨Γ, .expression ⟨left, op, right, g, q⟩⟩ Q ∧ e ∈ Q.violations := by
    intro hel
    cases op with
    | none => exact ⟨_, .wrapped, hel⟩
    | some op => exact ⟨_, .left, hel⟩
  cases right with
  | none => exact .inr (hleft he)
  | some right =>
      simp only [ofExpression, List.mem_append] at he
      rcases he with hnot | he | he
      · split at hnot
        · next hop =>
          obtain rfl := hop
          obtain rfl := List.mem_singleton.mp hnot
          exact .inl .negation
        · cases hnot
      · exact .inr (hleft he)
      · exact .inr ⟨_, .right, he⟩

theorem offends_or_child_of_node {Γ : Context} {π : Place} {e : SemanticError} {n : Node}
    (he : e ∈ ofNode Γ n) :
    Offends ⟨Γ, .node π n⟩ e ∨ ∃ Q, Child ⟨Γ, .node π n⟩ Q ∧ e ∈ Q.violations := by
  cases n with
  | array elements q => exact .inr ⟨_, .elements, he⟩
  | expression content q => exact .inr ⟨_, .content, he⟩
  | declaration name value q =>
      rcases List.mem_append.mp he with he | he
      · exact .inr ⟨_, .declared, he⟩
      · obtain ⟨htaken, rfl⟩ : name.text ∈ Γ.here ∧ e = duplicate name := by simpa using he
        exact .inl (.redeclared htaken)
  | assignment target value q => exact .inr ⟨_, .assigned, he⟩
  | branch condition consequent alternative q =>
      cases alternative with
      | none =>
          rcases List.mem_append.mp he with he | he
          · exact .inr ⟨_, .tested, he⟩
          · exact .inr ⟨_, .consequent, he⟩
      | some alternative =>
          rw [ofNode, List.mem_append, List.mem_append] at he
          rcases he with he | he | he
          · exact .inr ⟨_, .tested, he⟩
          · exact .inr ⟨_, .consequent, he⟩
          · exact .inr ⟨_, .alternative, he⟩
  | loop condition body q =>
      rcases List.mem_append.mp he with he | he
      · exact .inr ⟨_, .repeated, he⟩
      · exact .inr ⟨_, .loopBody, he⟩
  | definition name parameters body q =>
      rw [ofNode, List.mem_append, List.mem_append] at he
      rcases he with he | he | he
      · obtain ⟨htaken, rfl⟩ : name.text ∈ Γ.visible ∧ e = duplicate name := by simpa using he
        exact .inl (.redefined htaken)
      · obtain ⟨before, parameter, after, rfl, htaken, rfl⟩ := mem_ofParameters.mp he
        exact .inl (.repeatedParameter (by simpa using htaken))
      · exact .inr ⟨_, .functionBody, he⟩
  | call name arguments q =>
      rcases List.mem_append.mp he with he | he
      · obtain ⟨hinvisible, rfl⟩ : name.text ∉ Γ.visible ∧
            e = .unresolvedReference name.text name.position := by simpa using he
        exact .inl (.unresolved hinvisible)
      · exact .inr ⟨_, .arguments, he⟩
  | index offset q =>
      obtain rfl := List.mem_singleton.mp he
      exact .inl .unlisted
  | print value q => exact .inr ⟨_, .printed, he⟩
  | _ => cases he

theorem offends_or_child {σ : Shape} {P : Point} {e : SemanticError} (hP : P.shaped σ = true)
    (he : e ∈ P.violations) : Offends P e ∨ ∃ Q, Child P Q ∧ e ∈ Q.violations := by
  obtain ⟨Γ, s⟩ := P
  cases s with
  | node place n => exact offends_or_child_of_node he
  | expression x => exact offends_or_child_of_expression he
  | items ns => exact offends_or_child_of_members (.inl rfl) hP he
  | block parameters ns => exact offends_or_child_of_members (.inr ⟨_, rfl⟩) hP he

/-! ## The whole walk -/

noncomputable def Point.size (P : Point) : Nat :=
  match P.site with
  | .node _ n => sizeOf n
  | .expression e => sizeOf e
  | .items ns | .block _ ns => sizeOf ns

/-- The points below a point are parts of its tree. -/
theorem Child.size_lt {P Q : Point} (h : Child P Q) : Q.size < P.size := by
  cases h with
  | statement value => exact List.sizeOf_lt_of_mem (by simp)
  | item mem value => exact List.sizeOf_lt_of_mem mem
  | _ =>
      simp [Point.size]
      omega

/-- The walk finds the offences at a point and below it, and nothing else. -/
theorem mem_violations_iff {σ : Shape} {P : Point} {e : SemanticError}
    (hP : P.shaped σ = true) : e ∈ P.violations ↔ Reports P e := by
  constructor
  · intro he
    -- An error comes from the point itself or from a smaller tree below it.
    induction hsize : P.size using Nat.strongRecOn generalizing P with
    | ind size ih =>
        rcases offends_or_child hP he with hoffends | ⟨Q, hchild, hQ⟩
        · exact ⟨P, .refl, hoffends⟩
        · obtain ⟨R, hR, hoffends⟩ :=
            ih Q.size (hsize ▸ hchild.size_lt) (hchild.shaped hP) hQ rfl
          exact ⟨R, .head hchild hR, hoffends⟩
  · rintro ⟨Q, hQ, hoffends⟩
    induction hQ using Relation.ReflTransGen.head_induction_on with
    | refl => exact hoffends.mem_violations
    | head hchild _ ih => exact hchild.mem_violations hP (ih (hchild.shaped hP))

end Static

end Pictoscript
