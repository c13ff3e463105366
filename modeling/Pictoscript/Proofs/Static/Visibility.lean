import Mathlib.Data.List.Induction
import Mathlib.Data.List.Nodup
import Mathlib.Logic.Relation
import Mathlib.Tactic.ByContra
import Pictoscript.Proofs.Shape
import Pictoscript.SemanticError

/-! # Visible names

Which names may be used at each point of a program, as a relation on the tree and
without any walk through it. A name is visible at a point if

- an earlier statement of the block around the point introduces it, or one of an
  enclosing block that is earlier than the statement around the point, or
- it is a parameter or the name of a function around the point.

A program is *meaningful* if its trees keep to the four rules of `Meaningful`.
Breaking one of them is an *offence*, which belongs to one point and is reported
as one error.
-/

namespace Pictoscript

namespace Static

/-! ## Names -/

structure Context where
  /-- Names of the blocks and functions around the block of the point. -/
  outer : List String
  /-- Names that the block of the point has introduced so far. -/
  here : List String

namespace Context

def empty : Context := ⟨[], []⟩

def visible (Γ : Context) : List String := Γ.here ++ Γ.outer

def inner (Γ : Context) : Context := ⟨Γ.visible, []⟩

def add (Γ : Context) (names : List Name) : Context :=
  { Γ with here := Γ.here ++ names.map Name.text }

def within (Γ : Context) (name : Name) (parameters : List Name) : Context :=
  (Γ.add [name]).inner.add parameters

end Context

def introduced : Node → List Name
  | .declaration name _ _ | .definition name _ _ _ => [name]
  | _ => []

def Context.after (Γ : Context) (ns : List Node) : Context := Γ.add (ns.flatMap introduced)

@[simp] theorem Context.after_nil (Γ : Context) : Γ.after [] = Γ := by
  simp [Context.after, Context.add]

theorem Context.after_cons (Γ : Context) (n : Node) (ns : List Node) :
    Γ.after (n :: ns) = (Γ.after [n]).after ns := by
  simp [Context.after, Context.add]

/-! ## Points of a program -/

/-- A part of a tree: a node, an expression or a list. -/
inductive Site where
  | node (place : Place) (n : Node)
  | expression (e : Expression)
  /-- The elements of an array or the arguments of a call. -/
  | items (ns : List Node)
  /-- Statements, behind the parameters if they are the body of a function. -/
  | block (parameters : List Name) (ns : List Node)

/-- A part of a tree with the names that are visible there. -/
structure Point where
  names : Context
  site : Site

def Site.members? : Site → Option (List Node)
  | .items ns | .block _ ns => some ns
  | _ => none

/-- From a point to the points directly below it. A subscript in a list is no
point of its own: it belongs to the member before it. -/
inductive Child : Point → Point → Prop where
  | statement {Γ : Context} {ps : List Name} {before after : List Node} {n : Node}
      (value : n.isIndex = false) :
      Child ⟨Γ, .block ps (before ++ n :: after)⟩ ⟨Γ.after before, .node .statement n⟩
  | item {Γ : Context} {ns : List Node} {n : Node} (mem : n ∈ ns) (value : n.isIndex = false) :
      Child ⟨Γ, .items ns⟩ ⟨Γ, .node .whole n⟩
  | elements {Γ : Context} {π : Place} {elements : List Node} {q : Position} :
      Child ⟨Γ, .node π (.array elements q)⟩ ⟨Γ, .items elements⟩
  | arguments {Γ : Context} {π : Place} {name : Name} {arguments : List Node} {q : Position} :
      Child ⟨Γ, .node π (.call name arguments q)⟩ ⟨Γ, .items arguments⟩
  | content {Γ : Context} {π : Place} {e : Expression} {q : Position} :
      Child ⟨Γ, .node π (.expression e q)⟩ ⟨Γ, .expression e⟩
  | wrapped {Γ : Context} {n : Node} {right : Option Node} {g : Bool} {q : Position} :
      Child ⟨Γ, .expression ⟨n, none, right, g, q⟩⟩ ⟨Γ, .node .wrapped n⟩
  | left {Γ : Context} {n : Node} {op : Operator} {right : Option Node} {g : Bool}
      {q : Position} : Child ⟨Γ, .expression ⟨n, some op, right, g, q⟩⟩ ⟨Γ, .node .left n⟩
  | right {Γ : Context} {n left : Node} {op : Option Operator} {g : Bool} {q : Position} :
      Child ⟨Γ, .expression ⟨left, op, some n, g, q⟩⟩ ⟨Γ, .node .right n⟩
  | declared {Γ : Context} {π : Place} {name : Name} {value : Node} {q : Position} :
      Child ⟨Γ, .node π (.declaration name value q)⟩ ⟨Γ, .node .whole value⟩
  | assigned {Γ : Context} {π : Place} {target : Name} {value : Node} {q : Position} :
      Child ⟨Γ, .node π (.assignment target value q)⟩ ⟨Γ, .node .whole value⟩
  | printed {Γ : Context} {π : Place} {value : Node} {q : Position} :
      Child ⟨Γ, .node π (.print value q)⟩ ⟨Γ, .node .whole value⟩
  | tested {Γ : Context} {π : Place} {condition : Expression} {consequent : List Node}
      {alternative : Option (List Node)} {q : Position} :
      Child ⟨Γ, .node π (.branch condition consequent alternative q)⟩ ⟨Γ, .expression condition⟩
  | consequent {Γ : Context} {π : Place} {condition : Expression} {consequent : List Node}
      {alternative : Option (List Node)} {q : Position} :
      Child ⟨Γ, .node π (.branch condition consequent alternative q)⟩
        ⟨Γ.inner, .block [] consequent⟩
  | alternative {Γ : Context} {π : Place} {condition : Expression}
      {consequent alternative : List Node} {q : Position} :
      Child ⟨Γ, .node π (.branch condition consequent (some alternative) q)⟩
        ⟨Γ.inner, .block [] alternative⟩
  | repeated {Γ : Context} {π : Place} {condition : Expression} {body : List Node}
      {q : Position} : Child ⟨Γ, .node π (.loop condition body q)⟩ ⟨Γ, .expression condition⟩
  | loopBody {Γ : Context} {π : Place} {condition : Expression} {body : List Node}
      {q : Position} : Child ⟨Γ, .node π (.loop condition body q)⟩ ⟨Γ.inner, .block [] body⟩
  | functionBody {Γ : Context} {π : Place} {name : Name} {parameters : List Name}
      {body : List Node} {q : Position} :
      Child ⟨Γ, .node π (.definition name parameters body q)⟩
        ⟨Γ.within name parameters, .block parameters body⟩

def root (p : Program) : Point := ⟨.empty, .block [] p.statements⟩

/-- The site stands somewhere in the program, where the names of `Γ` are visible. -/
def Occurs (p : Program) (Γ : Context) (s : Site) : Prop :=
  Relation.ReflTransGen Child (root p) ⟨Γ, s⟩

/-! ## Meaningful programs -/

/-- The nearest member that is no subscript before a place in a list. -/
def receiver? (before : List Node) : Option Node := before.reverse.find? fun n => !n.isIndex

/-- The rules that the trees of a program keep to. -/
structure Meaningful (p : Program) : Prop where
  /-- `🚫` has no right operand. -/
  negations : ∀ {Γ e}, Occurs p Γ (.expression e) → e.operator = some .not → e.right = none
  /-- A subscript stands in a list. -/
  listed : ∀ {Γ π offset q}, ¬ Occurs p Γ (.node π (.index offset q))
  /-- It has a value before it, with at most subscripts between. -/
  received : ∀ {Γ s before offset q after}, Occurs p Γ s →
    s.members? = some (before ++ .index offset q :: after) →
    ∃ n, receiver? before = some n ∧ n.isValue = true
  /-- Only visible names are called. -/
  called : ∀ {Γ π name arguments q}, Occurs p Γ (.node π (.call name arguments q)) →
    name.text ∈ Γ.visible
  /-- The parameters of a block and the names it introduces are all different. -/
  distinct : ∀ {Γ parameters ns}, Occurs p Γ (.block parameters ns) →
    ((parameters ++ ns.flatMap introduced).map Name.text).Nodup
  /-- A function gets a name that is not visible yet. -/
  fresh : ∀ {Γ π name parameters body q},
    Occurs p Γ (.node π (.definition name parameters body q)) → name.text ∉ Γ.visible

/-! ## Offences -/

/-- The point breaks a rule, which is reported as the error. -/
inductive Offends : Point → SemanticError → Prop where
  | negation {Γ : Context} {left right : Node} {g : Bool} {q : Position} :
      Offends ⟨Γ, .expression ⟨left, some .not, some right, g, q⟩⟩
        (.ofMisshape .negationWithRight q)
  | unlisted {Γ : Context} {π : Place} {offset : Nat} {q : Position} :
      Offends ⟨Γ, .node π (.index offset q)⟩ (.ofMisshape .indexWithoutValue q)
  | unreceived {Γ : Context} {s : Site} {before after : List Node} {offset : Nat} {q : Position}
      (list : s.members? = some (before ++ .index offset q :: after))
      (receiver : (receiver? before).any Node.isValue = false) :
      Offends ⟨Γ, s⟩ (.ofMisshape .indexWithoutValue q)
  | unresolved {Γ : Context} {π : Place} {name : Name} {arguments : List Node} {q : Position}
      (invisible : name.text ∉ Γ.visible) :
      Offends ⟨Γ, .node π (.call name arguments q)⟩
        (.unresolvedReference name.text name.position)
  | redeclared {Γ : Context} {π : Place} {name : Name} {value : Node} {q : Position}
      (taken : name.text ∈ Γ.here) :
      Offends ⟨Γ, .node π (.declaration name value q)⟩
        (.duplicateDeclaration name.text name.position)
  | redefined {Γ : Context} {π : Place} {name : Name} {parameters : List Name}
      {body : List Node} {q : Position} (taken : name.text ∈ Γ.visible) :
      Offends ⟨Γ, .node π (.definition name parameters body q)⟩
        (.duplicateDeclaration name.text name.position)
  | repeatedParameter {Γ : Context} {π : Place} {name parameter : Name}
      {before after : List Name} {body : List Node} {q : Position}
      (taken : parameter.text ∈ before.map Name.text) :
      Offends ⟨Γ, .node π (.definition name (before ++ parameter :: after) body q)⟩
        (.duplicateDeclaration parameter.text parameter.position)

/-- Somewhere at the point or below it there is an offence. -/
def Reports (P : Point) (e : SemanticError) : Prop :=
  ∃ Q, Relation.ReflTransGen Child P Q ∧ Offends Q e

/-! ## Shapes of points -/

def Point.shaped (σ : Shape) (P : Point) : Bool :=
  match P.site with
  | .node place n => σ.node place n
  | .expression e => σ.expression e
  | .items ns => σ.items ns
  | .block _ ns => σ.block ns

/-- Only a statement introduces names. -/
theorem introduced_of_ne_statement {σ : Shape} {place : Place} {n : Node}
    (hplace : place ≠ .statement) (h : σ.node place n = true) : introduced n = [] := by
  cases n with
  | declaration name value q => simp [Shape.node, hplace] at h
  | definition name parameters body q => simp [Shape.node, hplace] at h
  | _ => rfl

/-- The points below a point of the right shape have the right shape. -/
theorem Child.shaped {σ : Shape} {P Q : Point} (h : Child P Q) (hP : P.shaped σ = true) :
    Q.shaped σ = true := by
  cases h with
  | statement value => exact Shape.node_of_mem_block (by simp) hP
  | item mem value => exact Shape.items_iff.mp hP _ mem
  | elements => exact hP
  | arguments =>
      simp only [Point.shaped, Shape.node, Bool.and_eq_true] at hP
      exact hP.2
  | content =>
      simp only [Point.shaped, Shape.node, Bool.and_eq_true] at hP
      exact hP.2
  | @wrapped Γ n right g q =>
      cases right with
      | none => exact hP
      | some right => cases hP
  | @left Γ n op right g q =>
      cases right with
      | none => cases op <;> first | exact hP | cases hP
      | some right =>
          simp only [Point.shaped, Shape.expression_joined, Bool.and_eq_true] at hP
          exact hP.1.2
  | @right Γ n left op g q =>
      cases op with
      | none => cases hP
      | some op =>
          simp only [Point.shaped, Shape.expression_joined, Bool.and_eq_true] at hP
          exact hP.2
  | declared =>
      simp only [Point.shaped, Shape.node, Bool.and_eq_true] at hP
      exact hP.2
  | assigned =>
      simp only [Point.shaped, Shape.node, Bool.and_eq_true] at hP
      exact hP.2
  | printed =>
      simp only [Point.shaped, Shape.node, Bool.and_eq_true] at hP
      exact hP.2
  | @tested Γ π condition consequent alternative q =>
      cases alternative with
      | none =>
          simp only [Point.shaped, Shape.node, Bool.and_eq_true] at hP
          exact hP.1.2
      | some alternative =>
          simp only [Point.shaped, Shape.node, Bool.and_eq_true] at hP
          exact hP.1.1.2
  | @consequent Γ π condition consequent alternative q =>
      cases alternative with
      | none =>
          simp only [Point.shaped, Shape.node, Bool.and_eq_true] at hP
          exact hP.2
      | some alternative =>
          simp only [Point.shaped, Shape.node, Bool.and_eq_true] at hP
          exact hP.1.2
  | alternative =>
      simp only [Point.shaped, Shape.node, Bool.and_eq_true] at hP
      exact hP.2
  | repeated =>
      simp only [Point.shaped, Shape.node, Bool.and_eq_true] at hP
      exact hP.1.2
  | loopBody =>
      simp only [Point.shaped, Shape.node, Bool.and_eq_true] at hP
      exact hP.2
  | functionBody =>
      simp only [Point.shaped, Shape.node, Bool.and_eq_true] at hP
      exact hP.2

theorem shaped_of_reflTransGen {σ : Shape} {P Q : Point} (h : Relation.ReflTransGen Child P Q)
    (hP : P.shaped σ = true) : Q.shaped σ = true := by
  induction h with
  | refl => exact hP
  | tail _ hchild ih => exact hchild.shaped ih

/-! ## Rules and offences -/

/-- Where a block begins, it has introduced its parameters and nothing else. -/
theorem here_of_occurs {p : Program} {Γ : Context} {parameters : List Name} {ns : List Node}
    (h : Occurs p Γ (.block parameters ns)) : Γ.here = parameters.map Name.text := by
  rcases Relation.ReflTransGen.cases_tail h with hroot | ⟨P, -, hchild⟩
  · cases hroot
    rfl
  · cases hchild <;> simp [Context.inner, Context.within, Context.add]

/-- A declaration of a program that was read stands in a block. -/
theorem block_of_declaration {p : Program} {σ : Shape} (hσ : σ.block p.statements = true)
    {Γ : Context} {π : Place} {name : Name} {value : Node} {q : Position}
    (h : Occurs p Γ (.node π (.declaration name value q))) :
    ∃ Δ parameters before after, Γ = Context.after Δ before ∧
      Occurs p Δ (.block parameters (before ++ .declaration name value q :: after)) := by
  have hshaped : Point.shaped σ ⟨Γ, .node π (.declaration name value q)⟩ = true :=
    shaped_of_reflTransGen h hσ
  rcases Relation.ReflTransGen.cases_tail h with hroot | ⟨P, hP, hchild⟩
  · cases hroot
  · -- Only a block has a declaration below it: every other place has another shape.
    cases hchild with
    | statement _ => exact ⟨_, _, _, _, rfl, hP⟩
    | _ => simp [Point.shaped, Shape.node] at hshaped

theorem nodup_map_iff {names : List Name} : (names.map Name.text).Nodup ↔
    ∀ before name after, names = before ++ name :: after →
      name.text ∉ before.map Name.text := by
  constructor
  · rintro h before name after rfl hmem
    rw [List.map_append, List.map_cons] at h
    exact List.disjoint_of_nodup_append h hmem (by simp)
  · induction names using List.reverseRecOn with
    | nil => simp
    | append_singleton names name ih =>
        intro h
        rw [List.map_append, List.nodup_append']
        refine ⟨ih ?_, by simp, ?_⟩
        · rintro before other after rfl
          exact h before other (after ++ [name]) (by simp)
        · simpa using h names name [] rfl

theorem Context.mem_visible_of_here {Γ : Context} {name : String} (h : name ∈ Γ.here) :
    name ∈ Γ.visible := List.mem_append_left _ h

/-- The program has no offences at all. -/
def Inoffensive (p : Program) : Prop := ∀ {Γ s e}, Occurs p Γ s → ¬ Offends ⟨Γ, s⟩ e

section Inoffensive

variable {p : Program} (h : Inoffensive p) {Γ : Context} {parameters : List Name}
include h

theorem Inoffensive.nodup_parameters {ns : List Node}
    (hblock : Occurs p Γ (.block parameters ns)) : (parameters.map Name.text).Nodup := by
  rcases Relation.ReflTransGen.cases_tail hblock with hroot | ⟨P, hP, hchild⟩
  · cases hroot
    exact List.nodup_nil
  · cases hchild with
    | functionBody =>
        rw [nodup_map_iff]
        rintro before name after rfl htaken
        exact h hP (.repeatedParameter htaken)
    | _ => exact List.nodup_nil

/-- A statement introduces a name that its block does not have yet. -/
theorem Inoffensive.not_mem_here {before after : List Node} {n : Node} {name : Name}
    (hblock : Occurs p Γ (.block parameters (before ++ n :: after)))
    (hname : name ∈ introduced n) : name.text ∉ (Γ.after before).here := by
  intro htaken
  cases n with
  | declaration other value q =>
      obtain rfl := List.mem_singleton.mp hname
      exact h (hblock.tail (.statement rfl)) (.redeclared htaken)
  | definition other names body q =>
      obtain rfl := List.mem_singleton.mp hname
      exact h (hblock.tail (.statement rfl))
        (.redefined (Context.mem_visible_of_here htaken))
  | _ => cases hname

/-- What a block has introduced so far is all different, statement by statement. -/
theorem Inoffensive.nodup_before {before : List Node} : ∀ {after : List Node},
    Occurs p Γ (.block parameters (before ++ after)) →
    ((parameters ++ before.flatMap introduced).map Name.text).Nodup := by
  induction before using List.reverseRecOn with
  | nil =>
      intro after hblock
      simpa using h.nodup_parameters hblock
  | append_singleton before n ih =>
      intro after hblock
      rw [List.append_assoc, List.singleton_append] at hblock
      have hhere := here_of_occurs hblock
      have hnew : ∀ name ∈ introduced n,
          name.text ∉ (parameters ++ before.flatMap introduced).map Name.text := by
        intro name hname
        simpa [Context.after, Context.add, hhere] using h.not_mem_here hblock hname
      have hone : ((introduced n).map Name.text).Nodup := by
        cases n <;> simp [introduced]
      rw [List.flatMap_append, List.flatMap_singleton, ← List.append_assoc, List.map_append,
        List.nodup_append']
      refine ⟨ih hblock, hone, fun text hbefore hn => ?_⟩
      obtain ⟨name, hname, rfl⟩ := List.mem_map.mp hn
      exact hnew name hname hbefore

theorem Inoffensive.meaningful : Meaningful p := by
  refine ⟨?_, ?_, ?_, ?_, ?_, ?_⟩
  · rintro Γ ⟨left, op, right, g, q⟩ hoccurs rfl
    cases right with
    | none => rfl
    | some right => exact absurd .negation (h hoccurs)
  · intro Γ π offset q hoccurs
    exact h hoccurs .unlisted
  · intro Γ s before offset q after hoccurs hlist
    by_contra hnone
    refine h hoccurs (.unreceived hlist ?_)
    cases hreceiver : receiver? before with
    | none => rfl
    | some n => simpa [hreceiver] using hnone
  · intro Γ π name arguments q hoccurs
    by_contra hinvisible
    exact h hoccurs (.unresolved hinvisible)
  · intro Γ parameters ns hoccurs
    rw [← List.append_nil ns] at hoccurs
    exact h.nodup_before hoccurs
  · intro Γ π name parameters body q hoccurs htaken
    exact h hoccurs (.redefined htaken)

end Inoffensive

theorem Meaningful.inoffensive {p : Program} {σ : Shape} (hσ : σ.block p.statements = true)
    (h : Meaningful p) : Inoffensive p := by
  intro Γ s e hoccurs hoffends
  cases hoffends with
  | negation => exact absurd (h.negations hoccurs rfl) (by simp)
  | unlisted => exact h.listed hoccurs
  | unreceived list receiver =>
      obtain ⟨n, hn, hvalue⟩ := h.received hoccurs list
      simp [hn, hvalue] at receiver
  | unresolved invisible => exact invisible (h.called hoccurs)
  | @redeclared Γ π name value q taken =>
      obtain ⟨Δ, parameters, before, after, rfl, hblock⟩ := block_of_declaration hσ hoccurs
      have hhere := here_of_occurs hblock
      refine nodup_map_iff.mp (h.distinct hblock) (parameters ++ before.flatMap introduced) name
        (after.flatMap introduced) (by simp [introduced]) ?_
      simpa [Context.after, Context.add, hhere] using taken
  | redefined taken => exact h.fresh hoccurs taken
  | @repeatedParameter Γ π name parameter before after body q taken =>
      refine nodup_map_iff.mp (h.distinct (hoccurs.tail .functionBody)) before parameter
        (after ++ body.flatMap introduced) (by simp) taken

/-- A program that was read is meaningful if and only if no point of it offends. -/
theorem meaningful_iff {p : Program} {σ : Shape} (hσ : σ.block p.statements = true) :
    Meaningful p ↔ ∀ e, ¬ Reports (root p) e := by
  constructor
  · rintro h e ⟨⟨Γ, s⟩, hoccurs, hoffends⟩
    exact h.inoffensive hσ hoccurs hoffends
  · intro h
    exact Inoffensive.meaningful fun hoccurs hoffends => h _ ⟨_, hoccurs, hoffends⟩

end Static

end Pictoscript
