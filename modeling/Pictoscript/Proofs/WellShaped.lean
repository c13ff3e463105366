import Pictoscript.Proofs.Nodes
import Pictoscript.Proofs.Static.Semantics

/-! # What the trees of texts look like

A tree has room for shapes that no text spells. Here is what holds everywhere in the
tree of a text, said of one node at a time: which operands an expression has, where
barriers are needed, and which nodes may stand where.

Rendering relies on it. Of the four complaints about the shape of an expression two
concern trees that no text spells, so no text is ever refused with them.
-/

namespace Pictoscript

/-! ## The parts of a node -/

namespace Expression

def operands (e : Expression) : List Node := e.left :: e.right.toList

end Expression

namespace Node

def isStatement : Node → Bool
  | .declaration .. | .assignment .. | .branch .. | .loop .. | .definition .. | .print .. => true
  | _ => false

/-- What a node tests before its blocks. -/
def condition? : Node → Option Expression
  | .branch condition _ _ _ | .loop condition _ _ => some condition
  | _ => none

def expression? : Node → Option Expression
  | .expression content _ => some content
  | n => n.condition?

/-- The nodes directly below a node that are not statements of its blocks. -/
def parts : Node → List Node
  | .array elements _ => elements
  | .call _ arguments _ => arguments
  | .declaration _ value _ | .assignment _ value _ | .print value _ => [value]
  | n => (n.expression?.map Expression.operands).getD []

/-- The node is no expression, or one with barriers. -/
def IsClosed (n : Node) : Prop := ∀ content p, n = .expression content p → content.grouped = true

end Node

/-! ## Well-shaped trees -/

/-- The operands of an expression fit its operator. -/
structure Expression.WellShaped (e : Expression) : Prop where
  /-- Every operator but `🚫` has a right operand. -/
  joins : ∀ op, e.operator = some op → op ≠ .not → e.right.isSome = true
  /-- Without an operator there is no right operand. -/
  wraps : e.operator = none → e.right = none
  /-- An operation on the right has barriers around it. -/
  right : ∀ n ∈ e.right, n.IsClosed
  /-- An operator is not applied to a subscript. -/
  subscripts : e.operator.isSome = true → ∀ n ∈ e.operands, n.isIndex = false

/-- What holds of every node in the tree of a text. -/
structure Node.WellShaped (n : Node) : Prop where
  expressions : ∀ e ∈ n.expression?, e.WellShaped
  /-- An expression without operator is there for its barriers, and not because an
  operation without barriers needed some. -/
  barriers : ∀ content p, n = .expression content p → content.operator = none →
    content.grouped = true ∧ content.left.IsClosed
  /-- A condition may also be just one operand. -/
  conditions : ∀ e ∈ n.condition?, e.operator = none →
    e.grouped = true ∧ e.left.IsClosed ∨ e.grouped = false ∧ e.left.isExpression = false
  /-- Statements are members of blocks only. -/
  parts : ∀ m ∈ n.parts, m.isStatement = false
  numbers : ∀ value p, n = .number value p → 0 ≤ value
  names : ∀ x ∈ n.mentions, x ≠ ""
  texts : ∀ value p, n = .text value p → ∀ c ∈ value.toList, c ∉ [' ', '\t', '\n', '\r']

/-! ## From shapes to well-shaped trees -/

namespace Shape

variable {σ : Shape} {place : Place} {n : Node}

theorem isStatement_of_ne_statement (h : σ.node place n = true) (hplace : place ≠ .statement) :
    n.isStatement = false := by
  cases n with
  | branch condition consequent alternative p =>
      cases alternative <;> simp [node, hplace] at h
  | declaration | assignment | loop | definition | print => simp [node, hplace] at h
  | _ => rfl

theorem isClosed_of_not_admitsBare (h : σ.node place n = true) (hplace : place.admitsBare = false) :
    n.IsClosed := by
  rintro content p rfl
  simpa [node, hplace] using And.left (Bool.and_eq_true_iff.mp h)

theorem isIndex_of_not_admitsIndex (h : σ.node place n = true)
    (hplace : place.admitsIndex = false) : n.isIndex = false := by
  cases n with
  | index offset p => simp [node, hplace] at h
  | _ => rfl

/-- The ways in which the parts of an expression may fit its operator. -/
theorem expression_cases {e : Expression} (h : σ.expression e = true) :
    (e.operator = none ∧ e.right = none ∧ σ.node .wrapped e.left = true) ∨
      (e.operator = some .not ∧ e.right = none ∧ σ.node .left e.left = true) ∨
      ∃ op right, e.operator = some op ∧ e.right = some right ∧
        σ.node .left e.left = true ∧ σ.node .right right = true := by
  obtain ⟨left, op, right, grouped, p⟩ := e
  rcases op with _ | op <;> rcases right with _ | right
  · exact .inl ⟨rfl, rfl, h⟩
  · cases h
  · cases op with
    | not => exact .inr (.inl ⟨rfl, rfl, h⟩)
    | _ => cases h
  · rw [expression_joined, Bool.and_eq_true, Bool.and_eq_true] at h
    exact .inr (.inr ⟨op, right, rfl, rfl, h.1.2, h.2⟩)

theorem wellShaped_expression {e : Expression} (h : σ.expression e = true) : e.WellShaped := by
  rcases expression_cases h with ⟨hop, hright, -⟩ | ⟨hop, hright, hleft⟩ |
    ⟨op, right, hop, hright, hleft, hr⟩
  · exact ⟨by simp [hop], fun _ => hright, by simp [hright], by simp [hop]⟩
  · refine ⟨by simp [hop], by simp [hop], by simp [hright], ?_⟩
    have hindex := isIndex_of_not_admitsIndex hleft rfl
    simpa [Expression.operands, hright] using fun _ => hindex
  · refine ⟨by simp [hright], by simp [hop], ?_, ?_⟩
    · rintro n hn
      cases hright.symm.trans hn
      exact isClosed_of_not_admitsBare hr rfl
    · have hindex := isIndex_of_not_admitsIndex hleft rfl
      have hindex' := isIndex_of_not_admitsIndex hr rfl
      simpa [Expression.operands, hright] using fun _ => ⟨hindex, hindex'⟩

theorem operands_not_statement {e : Expression} (h : σ.expression e = true) :
    ∀ m ∈ e.operands, m.isStatement = false := by
  rcases expression_cases h with ⟨-, hright, hleft⟩ | ⟨-, hright, hleft⟩ |
    ⟨op, right, -, hright, hleft, hr⟩
  · simpa [Expression.operands, hright] using isStatement_of_ne_statement hleft (by decide)
  · simpa [Expression.operands, hright] using isStatement_of_ne_statement hleft (by decide)
  · simpa [Expression.operands, hright] using
      ⟨isStatement_of_ne_statement hleft (by decide), isStatement_of_ne_statement hr (by decide)⟩

theorem isClosed_of_wrapped {e : Expression} (h : σ.expression e = true)
    (hop : e.operator = none) : e.left.IsClosed := by
  rcases expression_cases h with ⟨-, -, hleft⟩ | ⟨hnot, -⟩ | ⟨op, right, hsome, -⟩
  · exact isClosed_of_not_admitsBare hleft rfl
  · cases hop.symm.trans hnot
  · cases hop.symm.trans hsome

/-- Conditions are well shaped and may be one operand that is no expression. -/
theorem expression_of_condition? (h : σ.node place n = true) :
    ∀ e ∈ n.condition?, e.isCondition = true ∧ σ.expression e = true := by
  cases n with
  | branch condition consequent alternative p =>
      rintro e ⟨rfl⟩
      cases alternative <;> simp only [node, Bool.and_eq_true] at h
      · exact ⟨h.1.1.2, h.1.2⟩
      · exact ⟨h.1.1.1.2, h.1.1.2⟩
  | loop condition body p =>
      rintro e ⟨rfl⟩
      simp only [node, Bool.and_eq_true] at h
      exact ⟨h.1.1.2, h.1.2⟩
  | _ => simp [Node.condition?]

theorem expression_of_expression? (h : σ.node place n = true) :
    ∀ e ∈ n.expression?, σ.expression e = true := by
  cases n with
  | expression content p =>
      rintro e ⟨rfl⟩
      simp only [node, Bool.and_eq_true] at h
      exact h.2
  | _ => exact fun e he => (expression_of_condition? h e he).2

theorem parts_not_statement (h : σ.node place n = true) :
    ∀ m ∈ n.parts, m.isStatement = false := by
  have hoperands : ∀ m ∈ (n.expression?.map Expression.operands).getD [],
      m.isStatement = false := by
    intro m hm
    cases he : n.expression? with
    | none => simp [he] at hm
    | some e =>
        rw [he] at hm
        exact operands_not_statement (expression_of_expression? h e he) m hm
  have hwhole : ∀ {m : Node}, σ.node .whole m = true → m.isStatement = false :=
    fun hm => isStatement_of_ne_statement hm (by decide)
  cases n with
  | array elements p => exact fun m hm => hwhole (items_iff.mp h m hm)
  | call name arguments p =>
      simp only [node, Bool.and_eq_true] at h
      exact fun m hm => hwhole (items_iff.mp h.2 m hm)
  | declaration | assignment | print =>
      simp only [node, Bool.and_eq_true] at h
      simpa [Node.parts] using hwhole h.2
  | _ => exact hoperands

theorem conditions_of_node (h : σ.node place n = true) : ∀ e ∈ n.condition?, e.operator = none →
    e.grouped = true ∧ e.left.IsClosed ∨ e.grouped = false ∧ e.left.isExpression = false := by
  intro e he hop
  obtain ⟨hcondition, hexpression⟩ := expression_of_condition? h e he
  cases hgrouped : e.grouped with
  | true => exact .inl ⟨rfl, isClosed_of_wrapped hexpression hop⟩
  | false =>
      rw [Expression.isCondition, hgrouped, hop] at hcondition
      exact .inr ⟨rfl, by simpa using hcondition⟩

theorem barriers_of_node {content : Expression} {p : Position}
    (h : σ.node place (.expression content p) = true) (hop : content.operator = none) :
    content.grouped = true ∧ content.left.IsClosed := by
  simp only [node, Bool.and_eq_true] at h
  refine ⟨?_, isClosed_of_wrapped h.2 hop⟩
  simpa [hop] using h.1

theorem wellShaped_node (h : read.node place n = true) : n.WellShaped where
  expressions := fun e he => wellShaped_expression (expression_of_expression? h e he)
  barriers := by
    rintro content p rfl hop
    exact barriers_of_node h hop
  conditions := conditions_of_node h
  parts := parts_not_statement h
  numbers := by
    rintro value p rfl
    simp only [node, Bool.and_eq_true, decide_eq_true_eq] at h
    exact h.1
  names := by
    rintro x hx rfl
    exact absurd (isName_of_mentions h "" hx) (by decide)
  texts := by
    rintro value p rfl c hc hblank
    have hnot : isBlank c = false := by simpa using List.all_eq_true.mp h c hc
    simp_all [isBlank]

end Shape

/-! ## Errors about shapes -/

/-- What is wrong with the shape of an expression that is reported of a text. -/
theorem Static.Offends.message {P : Static.Point} {message : String} {q : Position}
    (h : Static.Offends P (.malformedExpression message q)) :
    message = Misshape.negationWithRight.message ∨
      message = Misshape.indexWithoutValue.message := by
  generalize he : SemanticError.malformedExpression message q = e at h
  cases h with
  | negation => exact .inl (by injection he)
  | unlisted => exact .inr (by injection he)
  | unreceived _ _ => exact .inr (by injection he)
  | _ => cases he

theorem message_of_compile {sink : Sink} {source message : String} {q : Position}
    (h : compile sink source = .error (.generate (.malformedExpression message q))) :
    message = Misshape.negationWithRight.message ∨
      message = Misshape.indexWithoutValue.message := by
  rw [compile] at h
  split at h
  · cases h
  · next p hsource =>
    have hshape := Shape.block_of_ofSource hsource
    have hscript := Program.script_of_shape hshape sink
    split at h
    · next e herror =>
      cases h
      cases hviolations : p.violations with
      | nil =>
          rw [hviolations] at hscript
          obtain ⟨text, htext⟩ := hscript
          cases htext.symm.trans herror
      | cons first others =>
          rw [hviolations] at hscript
          cases hscript.symm.trans herror
          have hmem : SemanticError.malformedExpression message q ∈ p.violations := by
            rw [hviolations]
            exact List.mem_cons_self ..
          obtain ⟨P, -, hoffends⟩ :=
            (Static.mem_violations_iff (P := Static.root p) hshape).mp hmem
          exact hoffends.message
    · cases h

/-- **The shape of trees.** All nodes of a program that was read are well shaped, and
its statements are members of its blocks only. So no text is refused because an
expression lacks its operator or its right operand. -/
theorem ofSource_wellShaped (source : String) :
    (∀ p, Program.ofSource source = .ok p → ∀ n ∈ p.nodes, n.WellShaped) ∧
      ∀ sink q, compile sink source ≠ .error (.generate (.ofMisshape .missingOperator q)) ∧
        ∀ op, compile sink source ≠ .error (.generate (.ofMisshape (.missingRight op) q)) := by
  refine ⟨?_, ?_⟩
  · intro p hsource n hn
    have hshape := Shape.exists_place_of_block (Shape.block_of_ofSource hsource)
    obtain ⟨place, hplace⟩ := Shape.exists_place_of_among p.statements hshape n hn
    exact Shape.wellShaped_node hplace
  · intro sink q
    refine ⟨?_, ?_⟩
    · intro h
      exact absurd (message_of_compile h) (by decide)
    · intro op h
      have hmessage := message_of_compile h
      cases op <;> exact absurd hmessage (by decide)

/-- A condition that is one operand, and a right operand between barriers. -/
theorem ofSource_wellShaped_loop :
    ∃ p, Program.ofSource "🔄 🍉 👉 📥 🍉 👉 ✅ 🤝 🚧 🍉 🚫 🚧 ⏹" = .ok p ∧ p.nodes.length = 7 ∧
      ∀ n ∈ p.nodes, n.WellShaped := by
  have htokens : tokenize "🔄 🍉 👉 📥 🍉 👉 ✅ 🤝 🚧 🍉 🚫 🚧 ⏹" =
      ⟨[⟨.loop, ⟨1, 1⟩⟩, ⟨.symbol "🍉", ⟨1, 3⟩⟩, ⟨.arrow, ⟨1, 5⟩⟩, ⟨.assign, ⟨1, 7⟩⟩,
        ⟨.symbol "🍉", ⟨1, 9⟩⟩, ⟨.arrow, ⟨1, 11⟩⟩, ⟨.boolean true, ⟨1, 13⟩⟩,
        ⟨.operator .and, ⟨1, 15⟩⟩, ⟨.barrier, ⟨1, 17⟩⟩, ⟨.symbol "🍉", ⟨1, 19⟩⟩,
        ⟨.operator .not, ⟨1, 21⟩⟩, ⟨.barrier, ⟨1, 23⟩⟩, ⟨.stop, ⟨1, 25⟩⟩], ⟨1, 26⟩⟩ := by
    decide +kernel
  have hread : Program.ofSource "🔄 🍉 👉 📥 🍉 👉 ✅ 🤝 🚧 🍉 🚫 🚧 ⏹" =
      .ok ⟨[.loop ⟨.variable "🍉" ⟨1, 3⟩, none, none, false, ⟨1, 3⟩⟩
        [.assignment ⟨"🍉", ⟨1, 9⟩⟩ (.expression ⟨.boolean true ⟨1, 13⟩, some .and,
          some (.expression ⟨.variable "🍉" ⟨1, 19⟩, some .not, none, true, ⟨1, 21⟩⟩ ⟨1, 17⟩),
          false, ⟨1, 15⟩⟩ ⟨1, 15⟩) ⟨1, 7⟩] ⟨1, 1⟩], ⟨1, 1⟩⟩ := by
    rw [Program.ofSource, htokens]
    rfl
  exact ⟨_, hread, rfl, (ofSource_wellShaped _).1 _ hread⟩

end Pictoscript
