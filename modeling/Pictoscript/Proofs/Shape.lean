import Pictoscript.Proofs.Grammar.Complete
import Pictoscript.Proofs.Lexing

/-! # The shape of trees

Not every tree is spelled by a text. Which nodes may stand where is a matter of
the grammar, and it is checked here by one recursion over the tree: an operation
without barriers is no right operand, a subscript is no operand, a declaration is
a member of a block and nothing else, and so on. What names and quoted texts look
like, which operators have a right operand and which statements may stand side by
side are parameters of that recursion.

The main statement is that a tree that was read has the shape `Shape.read`.
-/

namespace Pictoscript

open Reading Grammar

inductive Place where
  /-- The right operand of an operator. -/
  | right
  /-- The left operand of an operator. -/
  | left
  /-- The only part of an expression without operator. -/
  | wrapped
  /-- A member of an array or of arguments, or what a statement is about. -/
  | whole
  | statement
deriving DecidableEq

namespace Place

def admitsBare : Place → Bool
  | right | wrapped => false
  | _ => true

def admitsIndex : Place → Bool
  | right | left => false
  | _ => true

end Place

namespace Node

def isExpression : Node → Bool
  | .expression .. => true
  | _ => false

def isIndex : Node → Bool
  | .index .. => true
  | _ => false

end Node

/-- An expression has barriers or an operator, unless it is a condition made of
one operand that is no expression. -/
def Expression.isCondition (e : Expression) : Bool :=
  e.grouped || e.operator.isSome || !e.left.isExpression

theorem Expression.grouped_group (n : Node) : (Expression.group n).grouped = true := by
  cases n with
  | expression content q =>
      rw [Expression.group]
      split <;> rfl
  | _ => rfl

/-- What the trees of a kind look like, apart from the places of their nodes. -/
structure Shape where
  isName : String → Bool
  isText : String → Bool
  /-- Operators that may have a right operand. All but `🚫` must have one. -/
  takesRight : Operator → Bool
  /-- May a statement stand in front of the rest of its block? -/
  precedes : Node → List Node → Bool

namespace Shape

mutual
def node (σ : Shape) (place : Place) : Node → Bool
  | .number value _ => 0 ≤ value && value ≤ numberLimit
  | .text value _ => σ.isText value
  | .boolean _ _ => true
  | .variable name _ => σ.isName name
  | .array elements _ => σ.items elements
  | .expression content _ =>
    (content.grouped || content.operator.isSome && place.admitsBare) && σ.expression content
  | .declaration name value _ => place == .statement && σ.isName name.text && σ.node .whole value
  | .assignment target value _ =>
    place == .statement && σ.isName target.text && σ.node .whole value
  | .branch condition consequent none _ =>
    place == .statement && condition.isCondition && σ.expression condition && σ.block consequent
  | .branch condition consequent (some alternative) _ =>
    place == .statement && condition.isCondition && σ.expression condition &&
      σ.block consequent && σ.block alternative
  | .loop condition body _ =>
    place == .statement && condition.isCondition && σ.expression condition && σ.block body
  | .definition name parameters body _ =>
    place == .statement && σ.isName name.text && parameters.all (σ.isName ·.text) && σ.block body
  | .call name arguments _ => σ.isName name.text && σ.items arguments
  | .index offset _ => place.admitsIndex && offset ≤ offsetLimit
  | .print value _ => place == .statement && σ.node .whole value
def expression (σ : Shape) : Expression → Bool
  | ⟨left, none, none, _, _⟩ => σ.node .wrapped left
  | ⟨left, some .not, none, _, _⟩ => σ.node .left left
  | ⟨left, some op, some right, _, _⟩ =>
    σ.takesRight op && σ.node .left left && σ.node .right right
  | _ => false
def items (σ : Shape) : List Node → Bool
  | [] => true
  | n :: ns => σ.node .whole n && σ.items ns
def block (σ : Shape) : List Node → Bool
  | [] => true
  | n :: ns => σ.node .statement n && σ.precedes n ns && σ.block ns
end

/-- Trees that are read from a text: names are runs of symbols, blanks are not
part of a quoted text, and `🚫` may have a right operand. -/
def read : Shape where
  isName name := Pictograph.isSymbol name.toList
  isText value := value.toList.all fun c => !isBlank c
  takesRight _ := true
  precedes _ _ := true

variable {σ : Shape} {n : Node}

/-! ## Moving a node to another place -/

/-- A node fits every place that admits what its own place admits. -/
theorem node_mono {place place' : Place} (hbare : place.admitsBare → place'.admitsBare)
    (hindex : place.admitsIndex → place'.admitsIndex)
    (hstatement : place = .statement → place' = .statement) (h : σ.node place n = true) :
    σ.node place' n = true := by
  cases n with
  | branch condition consequent alternative p =>
      cases alternative <;>
        simp only [node, Bool.and_eq_true, beq_iff_eq] at h ⊢ <;>
        simp_all
  | expression content p =>
      simp only [node, Bool.and_eq_true, Bool.or_eq_true] at h ⊢
      refine ⟨h.1.imp_right fun hop => ⟨hop.1, hbare hop.2⟩, h.2⟩
  | _ => simp only [node, Bool.and_eq_true, beq_iff_eq] at h ⊢ <;> simp_all

theorem left_of_right (h : σ.node .right n = true) : σ.node .left n = true :=
  node_mono (by decide) (by decide) (by decide) h

theorem whole_of_left (h : σ.node .left n = true) : σ.node .whole n = true :=
  node_mono (by decide) (by decide) (by decide) h

theorem statement_of_whole (h : σ.node .whole n = true) : σ.node .statement n = true :=
  node_mono (by decide) (by decide) (by decide) h

theorem expression_joined {left right : Node} {op : Operator} {grouped : Bool} {p : Position} :
    σ.expression ⟨left, some op, some right, grouped, p⟩ =
      (σ.takesRight op && σ.node .left left && σ.node .right right) := by
  cases op <;> rfl

/-- The flag of an expression does not matter for its parts. -/
theorem expression_with_grouped (e : Expression) (g : Bool) :
    σ.expression { e with grouped := g } = σ.expression e := by
  obtain ⟨left, op, right, grouped, p⟩ := e
  rcases op with _ | op <;> rcases right with _ | right
  · rfl
  · rfl
  all_goals cases op <;> rfl

theorem wrapped_of_whole (h : σ.node .whole n = true)
    (hbare : ∀ content p, n = .expression content p → content.grouped = true) :
    σ.node .wrapped n = true := by
  cases n with
  | expression content p =>
      simp only [node, Bool.and_eq_true, Bool.or_eq_true] at h ⊢
      exact ⟨.inl (hbare content p rfl), h.2⟩
  | branch condition consequent alternative p => cases alternative <;> cases h
  | _ => exact h

/-- Barriers make an operand of whatever stands between them. -/
theorem node_group {p : Position} (h : σ.node .whole n = true) :
    σ.node .right (.expression (.group n) p) = true := by
  have hparts : σ.expression (.group n) = true := by
    cases n with
    | expression content q =>
        rw [Expression.group]
        split
        · next hcontent => exact wrapped_of_whole h (by rintro _ _ ⟨⟩; exact hcontent)
        · simp only [node, Bool.and_eq_true] at h
          rw [expression_with_grouped]
          exact h.2
    | _ => exact wrapped_of_whole h (by rintro _ _ ⟨⟩)
  rw [node, Expression.grouped_group, hparts]
  rfl

/-- What stands where an expression is expected may be a condition. -/
theorem expression_ofNode (h : σ.node .whole n = true) :
    (Expression.ofNode n).isCondition = true ∧ σ.expression (.ofNode n) = true := by
  cases n with
  | expression content p =>
      simp only [node, Place.admitsBare, Bool.and_true, Bool.and_eq_true] at h
      refine ⟨?_, h.2⟩
      rw [Expression.ofNode, Expression.isCondition, h.1]
      rfl
  | _ => exact ⟨rfl, wrapped_of_whole h (by rintro _ _ ⟨⟩)⟩

/-! ## Members of lists -/

theorem items_iff {ns : List Node} : σ.items ns = true ↔ ∀ n ∈ ns, σ.node .whole n = true := by
  induction ns with
  | nil => simp [items]
  | cons n ns ih => simp [items, ih]

theorem node_of_mem_block {ns : List Node} (hmem : n ∈ ns) (h : σ.block ns = true) :
    σ.node .statement n = true := by
  induction ns with
  | nil => cases hmem
  | cons m ns ih =>
      simp only [block, Bool.and_eq_true] at h
      rcases List.mem_cons.mp hmem with rfl | hmem
      · exact h.1.1
      · exact ih hmem h.2

theorem exists_place_of_items {ns : List Node} (h : σ.items ns = true) :
    ∀ n ∈ ns, ∃ place, σ.node place n = true := fun n hn => ⟨.whole, items_iff.mp h n hn⟩

theorem exists_place_of_block {ns : List Node} (h : σ.block ns = true) :
    ∀ n ∈ ns, ∃ place, σ.node place n = true := fun _ hn => ⟨.statement, node_of_mem_block hn h⟩

/-! ## Trees that are read -/

theorem isSymbol_append {u v : List Char} (hu : Pictograph.isSymbol u = true)
    (hv : Pictograph.isSymbol v = true) : Pictograph.isSymbol (u ++ v) = true := by
  simp only [Pictograph.isSymbol, Bool.and_eq_true, List.all_eq_true, Bool.or_eq_true,
    List.contains_eq_mem, List.mem_append, List.any_append, decide_eq_true_eq] at *
  refine ⟨?_, ?_⟩
  · rintro c (hc | hc)
    · exact (hu.1 c hc).imp_right fun h => ⟨.inl h.1, h.2⟩
    · exact (hv.1 c hc).imp_right fun h => ⟨.inr h.1, h.2⟩
  · exact hu.2.imp .inl .inl

theorem isSymbol_join {units : List String} (hne : units ≠ [])
    (h : ∀ u ∈ units, Pictograph.isSymbol u.toList = true) :
    Pictograph.isSymbol (String.join units).toList = true := by
  rw [String.toList_join]
  induction units with
  | nil => exact absurd rfl hne
  | cons u units ih =>
      rw [List.flatMap_cons]
      by_cases hunits : units = []
      · rw [hunits, List.flatMap_nil, List.append_nil]
        exact h u (by simp)
      · exact isSymbol_append (h u (by simp))
          (ih hunits fun v hv => h v (List.mem_cons_of_mem u hv))

theorem isName_of_writesName {name : Name} {ts : List (Located Token)} (h : WritesName name ts)
    (hts : ∀ t ∈ ts, t.value.isGenuine = true) : read.isName name.text = true := by
  obtain ⟨⟨units, hne, hmap, hjoin⟩, -⟩ := h
  rw [← hjoin]
  apply isSymbol_join hne
  intro u hu
  have hmem : Token.symbol u ∈ ts.map Located.value := by
    rw [hmap]
    exact List.mem_map_of_mem hu
  obtain ⟨t, ht, hvalue⟩ := List.mem_map.mp hmem
  have hgenuine := hts t ht
  rwa [hvalue] at hgenuine

def OfPhrase (σ : Shape) : Phrase → Prop
  | .operand _ n => σ.node .right n = true
  | .chain _ n => σ.node .left n = true
  | .expression _ n => σ.node .whole n = true
  | .items _ ns => σ.items ns = true
  | .parameters names => names.all (σ.isName ·.text) = true
  | .statement n => σ.node .statement n = true
  | .block ns => σ.block ns = true

/-- A phrase written with tokens of a text has the shape of trees that are read. -/
theorem ofPhrase_of_written {φ : Phrase} {ts : List (Located Token)} (h : Written φ ts)
    (hts : ∀ t ∈ ts, t.value.isGenuine = true) : read.OfPhrase φ := by
  induction h with
  | number _ bounded =>
      simp only [OfPhrase, node, Bool.and_eq_true, decide_eq_true_eq]
      omega
  | text value p => exact hts _ (List.mem_singleton_self _)
  | boolean value p => rfl
  | reference written => exact isName_of_writesName written hts
  | array p q _ ih =>
      rw [List.forall_mem_cons, List.forall_mem_append] at hts
      exact ih hts.2.1
  | namedCall q r named _ ih =>
      rw [List.forall_mem_append, List.forall_mem_cons, List.forall_mem_append] at hts
      have hname := isName_of_writesName named hts.1
      have harguments := ih hts.2.2.1
      simp only [OfPhrase, node, Bool.and_eq_true]
      exact ⟨hname, harguments⟩
  | markedCall p q r named _ ih =>
      rw [List.forall_mem_cons, List.forall_mem_append, List.forall_mem_cons,
        List.forall_mem_append] at hts
      have hname := isName_of_writesName named hts.2.1
      have harguments := ih hts.2.2.2.1
      simp only [OfPhrase, node, Bool.and_eq_true]
      exact ⟨hname, harguments⟩
  | group p q _ ih =>
      rw [List.forall_mem_cons, List.forall_mem_append] at hts
      exact node_group (ih hts.2.1)
  | first _ ih => exact left_of_right (ih hts)
  | @joined g left right op ts us p _ _ _ ihl ihr =>
      rw [List.forall_mem_append, List.forall_mem_cons] at hts
      have hleft : read.node .left left = true := ihl hts.1
      have hright : read.node .right right = true := ihr hts.2.2
      rw [OfPhrase, node, expression_joined, hleft, hright]
      rfl
  | negated p _ ih =>
      rw [List.forall_mem_append] at hts
      exact ih hts.1
  | index p _ bounded =>
      simp only [OfPhrase, node, Place.admitsIndex, Bool.true_and, decide_eq_true_eq]
      exact bounded
  | ofChain _ ih => exact whole_of_left (ih hts)
  | noItems => rfl
  | comma p _ ih => exact ih (List.forall_mem_cons.mp hts).2
  | item _ _ _ ih ihs =>
      rw [List.forall_mem_append] at hts
      simp only [OfPhrase, items, Bool.and_eq_true]
      exact ⟨ih hts.1, ihs hts.2⟩
  | noParameters => rfl
  | parameter p named _ ih =>
      rw [List.forall_mem_cons, List.forall_mem_append] at hts
      have hname := isName_of_writesName named hts.2.1
      simp only [OfPhrase, List.all_cons, Bool.and_eq_true]
      exact ⟨hname, ih hts.2.2⟩
  | declaration p q named _ ih =>
      rw [List.forall_mem_cons, List.forall_mem_append, List.forall_mem_cons] at hts
      have hname := isName_of_writesName named hts.2.1
      simp only [OfPhrase, node, beq_self_eq_true, Bool.true_and, Bool.and_eq_true]
      exact ⟨hname, ih hts.2.2.2⟩
  | assignment p q named _ ih =>
      rw [List.forall_mem_cons, List.forall_mem_append, List.forall_mem_cons] at hts
      have hname := isName_of_writesName named hts.2.1
      simp only [OfPhrase, node, beq_self_eq_true, Bool.true_and, Bool.and_eq_true]
      exact ⟨hname, ih hts.2.2.2⟩
  | branch p q r _ _ ihc ih =>
      rw [List.forall_mem_cons, List.forall_mem_append, List.forall_mem_cons,
        List.forall_mem_append] at hts
      have hcondition := expression_ofNode (ihc hts.2.1)
      have hconsequent := ih hts.2.2.2.1
      simp only [OfPhrase, node, beq_self_eq_true, Bool.true_and, Bool.and_eq_true]
      exact ⟨hcondition, hconsequent⟩
  | branchElse p q r s _ _ _ ihc ih iho =>
      rw [List.forall_mem_cons, List.forall_mem_append, List.forall_mem_cons,
        List.forall_mem_append, List.forall_mem_cons, List.forall_mem_append] at hts
      have hcondition := expression_ofNode (ihc hts.2.1)
      have hconsequent := ih hts.2.2.2.1
      have halternative := iho hts.2.2.2.2.2.1
      simp only [OfPhrase, node, beq_self_eq_true, Bool.true_and, Bool.and_eq_true]
      exact ⟨⟨hcondition, hconsequent⟩, halternative⟩
  | loop p q r _ _ ihc ih =>
      rw [List.forall_mem_cons, List.forall_mem_append, List.forall_mem_cons,
        List.forall_mem_append] at hts
      have hcondition := expression_ofNode (ihc hts.2.1)
      have hbody := ih hts.2.2.2.1
      simp only [OfPhrase, node, beq_self_eq_true, Bool.true_and, Bool.and_eq_true]
      exact ⟨hcondition, hbody⟩
  | definition p q r named _ _ ihp ih =>
      rw [List.forall_mem_cons, List.forall_mem_append, List.forall_mem_append,
        List.forall_mem_cons, List.forall_mem_append] at hts
      have hname := isName_of_writesName named hts.2.1
      have hparameters := ihp hts.2.2.1
      have hbody := ih hts.2.2.2.2.1
      simp only [OfPhrase, node, beq_self_eq_true, Bool.true_and, Bool.and_eq_true]
      exact ⟨⟨hname, hparameters⟩, hbody⟩
  | print p _ ih =>
      simp only [OfPhrase, node, beq_self_eq_true, Bool.true_and]
      exact ih (List.forall_mem_cons.mp hts).2
  | marked _ _ ih => exact statement_of_whole (whole_of_left (left_of_right (ih hts)))
  | plain _ _ ih => exact statement_of_whole (ih hts)
  | noStatements => rfl
  | statement _ _ _ ih ihs =>
      rw [List.forall_mem_append] at hts
      simp only [OfPhrase, block, read, Bool.and_true, Bool.and_eq_true]
      exact ⟨ih hts.1, ihs hts.2⟩

/-- The statements of a program that was read. -/
theorem block_of_ofSource {source : String} {p : Program}
    (h : Program.ofSource source = .ok p) : read.block p.statements = true :=
  ofPhrase_of_written (Program.ofSource_eq_ok_iff.mp h).1 genuine_of_mem_tokenize

end Shape

end Pictoscript
