import Pictoscript.Proofs.JavaScript.Subscripts

/-! # When subscripts belong to the whole value before them

A subscript is meant to be taken of the whole value before it. A script does just
that unless a subscript stands right behind an operation that was written without
barriers. In that case the script is still read, but another way: the subscript
of `✅ 🚫 🔎 0️⃣` is taken of `✅` and not of its negation.
-/

namespace Pictoscript

/-- The lists of statements, elements or arguments that a node has directly. -/
def Node.lists : Node → List (List Node)
  | .array ns _ | .call _ ns _ | .loop _ ns _ | .definition _ _ ns _ => [ns]
  | .branch _ ns none _ => [ns]
  | .branch _ ns (some os) _ => [ns, os]
  | _ => []

/-- All lists of a program in which subscripts may stand. -/
def Program.lists (p : Program) : List (List Node) := p.statements :: p.nodes.flatMap Node.lists

namespace Js

variable {e f : Expr}

theorem Expr.subscripted_cons (k : Nat) (ks : List Nat) :
    ∃ receiver offset, e.subscripted (k :: ks) = .subscript receiver offset := by
  induction ks generalizing e k with
  | nil => exact ⟨e, .number k, rfl⟩
  | cons k' ks ih => exact ih k'

theorem Expr.subscripted_inj {ks : List Nat} : e.subscripted ks = f.subscripted ks ↔ e = f := by
  induction ks generalizing e f with
  | nil => exact Iff.rfl
  | cons k ks ih =>
      rw [subscripted, subscripted, ih]
      simp

end Js

namespace Subscripts

open Grammar

/-! ## Lists without loose subscripts -/

/-- No operation without barriers stands right before a subscript. -/
def Firm (ns : List Node) : Prop :=
  ∀ n k p, [n, .index k p] <:+: ns → n.isBareOperation = false

theorem firm_nil : Firm [] := by
  intro n k p h
  have hlength := h.length_le
  simp at hlength

theorem offsets_eq_nil_iff {ns : List Node} :
    offsets ns = [] ↔ ∀ k p, ¬[Node.index k p] <+: ns := by
  cases ns with
  | nil => simp [offsets]
  | cons n ns => cases n <;> simp [offsets]

theorem firm_cons {n : Node} {ns : List Node} :
    Firm (n :: ns) ↔ (n.isBareOperation = true → offsets ns = []) ∧ Firm ns := by
  simp only [Firm, List.infix_cons_iff, offsets_eq_nil_iff, List.cons_prefix_cons]
  constructor
  · intro h
    refine ⟨fun hbare k p hindex => ?_, fun m k p hinfix => h m k p (.inr hinfix)⟩
    have hnot := h n k p (.inl ⟨rfl, hindex⟩)
    rw [hbare] at hnot
    cases hnot
  · rintro ⟨hhead, htail⟩ m k p (⟨rfl, hindex⟩ | hinfix)
    · cases hbare : m.isBareOperation with
      | false => rfl
      | true => exact absurd hindex (hhead hbare k p)
    · exact htail m k p hinfix

def HasFirm (n : Node) : Prop := ∀ ns ∈ n.lists, Firm ns

theorem hasFirm_expression (content : Expression) (p : Position) :
    HasFirm (.expression content p) := by
  simp [HasFirm, Node.lists]

/-! ## Both ways of attaching -/

variable {sink : Sink} {n : Node}

theorem tight_false (ks : List Nat) (e : Js.Expr) : tight false ks e = e.subscripted ks := by
  cases e <;> rfl

/-- The two ways agree on a value just when they agree on its parts and there is
nothing to attach to a bare operation. -/
theorem attach_eq_iff (n : Node) (ks : List Nat) :
    tight n.isBareOperation ks (value tight n) = whole n.isBareOperation ks (value whole n) ↔
      value tight n = value whole n ∧ (n.isBareOperation = true → ks = []) := by
  cases hbare : n.isBareOperation with
  | false => simp [tight_false, whole, Js.Expr.subscripted_inj]
  | true =>
      obtain ⟨left, op, right, p, q, rfl⟩ :
          ∃ left op right p q, n = .expression ⟨left, some op, right, false, p⟩ q := by
        cases n with
        | expression content q =>
            obtain ⟨left, op, right, grouped, p⟩ := content
            cases op with
            | none => cases hbare
            | some op =>
                cases grouped with
                | true => simp [Node.isBareOperation] at hbare
                | false => exact ⟨left, op, right, p, q, rfl⟩
        | _ => cases hbare
      cases ks with
      | nil => cases right <;> simp [value, operation, tight, whole, Js.Expr.subscripted]
      | cons k ks =>
          obtain ⟨receiver, offset, hsubscript⟩ :=
            (value whole (.expression ⟨left, some op, right, false, p⟩ q)).subscripted_cons k ks
          rw [whole, hsubscript]
          cases right <;> simp [value, operation, tight]

/-! ## All phrases -/

/-- The two ways agree on a phrase just when its lists are firm. -/
def Settled (sink : Sink) : Phrase → Prop
  | .operand _ n | .chain _ n | .expression _ n =>
    value tight n = value whole n ↔ ∀ m ∈ n.nodes, HasFirm m
  | .items _ ns => items tight ns = items whole ns ↔ Firm ns ∧ ∀ m ∈ Node.among ns, HasFirm m
  | .parameters _ => True
  | .statement n => statement tight sink n = statement whole sink n ↔ ∀ m ∈ n.nodes, HasFirm m
  | .block ns =>
    block tight sink ns = block whole sink ns ↔ Firm ns ∧ ∀ m ∈ Node.among ns, HasFirm m

theorem statement_of_isValue {attach : Bool → List Nat → Js.Expr → Js.Expr}
    (h : n.isValue = true) : statement attach sink n = .evaluate (value attach n) := by
  cases n with
  | declaration => cases h
  | assignment => cases h
  | branch => cases h
  | loop => cases h
  | definition => cases h
  | print => cases h
  | _ => rfl

theorem settled_value (hvalue : n.isValue = true)
    (h : value tight n = value whole n ↔ ∀ m ∈ n.nodes, HasFirm m) :
    Settled sink (.statement n) := by
  rw [Settled, statement_of_isValue hvalue, statement_of_isValue hvalue, ← h]
  simp

theorem forall_nodes_cons {P : Node → Prop} :
    (∀ m ∈ n.nodes, P m) ↔ P n ∧ ∀ m ∈ n.descendants, P m :=
  List.forall_mem_cons

/-- A list with one member more. -/
theorem settled_cons {α : Type} {a b : α} {as bs : List α} {ns : List Node}
    (hmember : a = b ↔ (∀ m ∈ n.nodes, HasFirm m) ∧ (n.isBareOperation = true → offsets ns = []))
    (hmore : as = bs ↔ Firm ns ∧ ∀ m ∈ Node.among ns, HasFirm m) :
    a :: as = b :: bs ↔ Firm (n :: ns) ∧ ∀ m ∈ Node.among (n :: ns), HasFirm m := by
  rw [List.cons.injEq, hmember, hmore, firm_cons, Node.among, List.forall_mem_append]
  constructor
  · rintro ⟨⟨hn, hbare⟩, hfirm, hns⟩
    exact ⟨⟨hbare, hfirm⟩, hn, hns⟩
  · rintro ⟨⟨hbare, hfirm⟩, hn, hns⟩
    exact ⟨⟨hn, hbare⟩, hfirm, hns⟩

/-- A subscript changes nothing for the list. -/
theorem firm_index (k : Nat) (p : Position) (ns : List Node) :
    (Firm (.index k p :: ns) ∧ ∀ m ∈ Node.among (.index k p :: ns), HasFirm m) ↔
      Firm ns ∧ ∀ m ∈ Node.among ns, HasFirm m := by
  rw [firm_cons, Node.among, List.forall_mem_append]
  simp [Node.isBareOperation, Node.descendants, HasFirm, Node.lists]

theorem settled_of_written {φ : Phrase} {ts : List (Located Token)} (h : Written φ ts) :
    Settled sink φ := by
  induction h with
  | array p q _ ih =>
      simp only [Settled] at ih ⊢
      simp [value, ih, forall_nodes_cons, Node.descendants, HasFirm, Node.lists]
  | namedCall q r _ _ ih =>
      simp only [Settled] at ih ⊢
      simp [value, ih, forall_nodes_cons, Node.descendants, HasFirm, Node.lists]
  | markedCall p q r _ _ ih =>
      simp only [Settled] at ih ⊢
      simp [value, ih, forall_nodes_cons, Node.descendants, HasFirm, Node.lists]
  | group p q _ ih =>
      rw [Settled, value_group, value_group, forall_nodes_group hasFirm_expression]
      exact ih
  | first _ ih => exact ih
  | joined p _ _ _ ihl ihr =>
      simp only [Settled] at ihl ihr ⊢
      rw [forall_nodes_expression hasFirm_expression, Expression.nodes, List.forall_mem_append]
      simp only [value, operation, Js.Expr.operation.injEq, true_and, ihl, ihr]
      exact Iff.rfl
  | negated p _ ih =>
      simp only [Settled] at ih ⊢
      rw [forall_nodes_expression hasFirm_expression, Expression.nodes]
      simp only [value, operation, Js.Expr.negation.injEq, ih]
      exact Iff.rfl
  | ofChain _ ih => exact ih
  | noItems => simp [Settled, items, firm_nil, Node.among]
  | comma p _ ih => exact ih
  | @item g n ns ts us _ _ _ ih ihs =>
      simp only [Settled] at ih ihs ⊢
      cases hindex : n.isIndex with
      | true =>
          obtain ⟨k, p, rfl⟩ := isIndex_iff.mp hindex
          rw [firm_index]
          exact ihs
      | false =>
          rw [items_cons hindex, items_cons hindex]
          apply settled_cons _ ihs
          rw [attach_eq_iff, ih]
  | noParameters => trivial
  | parameter p _ _ _ => trivial
  | declaration p q _ _ ih =>
      simp only [Settled] at ih ⊢
      simp [statement, ih, forall_nodes_cons, Node.descendants, HasFirm, Node.lists]
  | assignment p q _ _ ih =>
      simp only [Settled] at ih ⊢
      simp [statement, ih, forall_nodes_cons, Node.descendants, HasFirm, Node.lists]
  | branch p q r _ _ ihc ih =>
      simp only [Settled] at ihc ih ⊢
      rw [forall_nodes_cons, Node.descendants, List.forall_mem_append,
        forall_nodes_ofNode hasFirm_expression, ← ihc]
      simp only [statement, operation_ofNode, Js.Statement.branch.injEq, ih, and_true]
      simp only [HasFirm, Node.lists, List.forall_mem_singleton]
      exact and_left_comm
  | branchElse p q r s _ _ _ ihc ih iho =>
      simp only [Settled] at ihc ih iho ⊢
      rw [forall_nodes_cons, Node.descendants, List.forall_mem_append, List.forall_mem_append,
        forall_nodes_ofNode hasFirm_expression, ← ihc]
      simp only [statement, operation_ofNode, Js.Statement.branch.injEq, Option.some.injEq, ih, iho]
      simp only [HasFirm, Node.lists, List.mem_cons, List.not_mem_nil, or_false,
        forall_eq_or_imp, forall_eq]
      constructor
      · rintro ⟨hcondition, ⟨hns, hbelow⟩, hos, hothers⟩
        exact ⟨⟨hns, hos⟩, ⟨hcondition, hbelow⟩, hothers⟩
      · rintro ⟨⟨hns, hos⟩, ⟨hcondition, hbelow⟩, hothers⟩
        exact ⟨hcondition, ⟨hns, hbelow⟩, hos, hothers⟩
  | loop p q r _ _ ihc ih =>
      simp only [Settled] at ihc ih ⊢
      rw [forall_nodes_cons, Node.descendants, List.forall_mem_append,
        forall_nodes_ofNode hasFirm_expression, ← ihc]
      simp only [statement, operation_ofNode, Js.Statement.loop.injEq, ih]
      simp only [HasFirm, Node.lists, List.forall_mem_singleton]
      exact and_left_comm
  | definition p q r _ _ _ _ ih =>
      simp only [Settled] at ih ⊢
      simp [statement, ih, forall_nodes_cons, Node.descendants, HasFirm, Node.lists]
  | print p _ ih =>
      simp only [Settled] at ih ⊢
      simp [statement, ih, forall_nodes_cons, Node.descendants, HasFirm, Node.lists]
  | marked _ written ih => exact settled_value (isValue_of_written_operand written) ih
  | plain _ written ih => exact settled_value (isValue_of_written_expression written) ih
  | noStatements => simp [Settled, block, firm_nil, Node.among]
  | @statement n ns ts us _ _ _ ih ihs =>
      simp only [Settled] at ih ihs ⊢
      cases hindex : n.isIndex with
      | true =>
          obtain ⟨k, p, rfl⟩ := isIndex_iff.mp hindex
          rw [firm_index]
          exact ihs
      | false =>
          rw [block_cons hindex, block_cons hindex]
          apply settled_cons _ ihs
          cases hvalue : n.isValue with
          | true =>
              rw [statement_of_isValue hvalue, statement_of_isValue hvalue,
                Js.Statement.evaluate.injEq] at ih
              simp only [if_true, Js.Statement.evaluate.injEq]
              rw [attach_eq_iff, ih]
          | false =>
              have hbare : n.isBareOperation = false := by
                cases n with
                | expression => cases hvalue
                | _ => rfl
              simp [hbare, ih]
  | _ => simp [Settled, value, Node.nodes, Node.descendants, HasFirm, Node.lists]

/-! ## Scripts -/

/-- **Receivers.** Where no name holds an asterisk, which would be read as an operator, a
script is read with every subscript taken of the whole value before it just when none
stands right behind an operation without barriers. -/
theorem read_compile_whole_iff {source script : String} {p : Program}
    (hsource : Program.ofSource source = .ok p) (hscript : compile sink source = .ok script)
    (hstar : ∀ n ∈ p.nodes, ∀ x ∈ n.mentions, '*' ∉ x.toList) :
    Js.read script = some (block whole sink p.statements) ↔
      ∀ ns ∈ p.lists, ∀ n k q, [n, .index k q] <:+: ns → n.isBareOperation = false := by
  have hsettled : block tight sink p.statements = block whole sink p.statements ↔
      Firm p.statements ∧ ∀ m ∈ p.nodes, HasFirm m :=
    settled_of_written (Program.ofSource_eq_ok_iff.mp hsource).1
  have hlists : (∀ ns ∈ p.lists, Firm ns) ↔ Firm p.statements ∧ ∀ m ∈ p.nodes, HasFirm m := by
    rw [Program.lists, List.forall_mem_cons]
    simp only [List.mem_flatMap, forall_exists_index, and_imp, HasFirm]
    constructor
    · rintro ⟨hstatements, hbelow⟩
      exact ⟨hstatements, fun m hm ns hns => hbelow ns m hm hns⟩
    · rintro ⟨hstatements, hbelow⟩
      exact ⟨hstatements, fun ns m hm hns => hbelow m hm ns hns⟩
  rw [read_compile_tight hsource hscript hstar, Option.some.injEq, hsettled, ← hlists]
  exact Iff.rfl

/-- The subscript is taken of a sum in barriers, but of the last operand of a sum
without them. -/
theorem read_compile_whole_sum :
    Js.read "(🍉+🍇)[0]" = some [.evaluate (.subscript
      (.operation .add (.name "🍉") (.name "🍇")) (.number 0))] ∧
    Js.read "🍉+🍇[0]" ≠ some [.evaluate (.subscript
      (.operation .add (.name "🍉") (.name "🍇")) (.number 0))] := by
  have hgrouped : tokenize "🚧 🍉 ➕ 🍇 🚧 🔎 0️⃣" =
      ⟨[⟨.barrier, ⟨1, 1⟩⟩, ⟨.symbol "🍉", ⟨1, 3⟩⟩, ⟨.operator .add, ⟨1, 5⟩⟩,
        ⟨.symbol "🍇", ⟨1, 7⟩⟩, ⟨.barrier, ⟨1, 9⟩⟩, ⟨.index, ⟨1, 11⟩⟩, ⟨.digit 0, ⟨1, 13⟩⟩],
        ⟨1, 16⟩⟩ := by
    decide +kernel
  have hbare : tokenize "🍉 ➕ 🍇 🔎 0️⃣" =
      ⟨[⟨.symbol "🍉", ⟨1, 1⟩⟩, ⟨.operator .add, ⟨1, 3⟩⟩, ⟨.symbol "🍇", ⟨1, 5⟩⟩,
        ⟨.index, ⟨1, 7⟩⟩, ⟨.digit 0, ⟨1, 9⟩⟩], ⟨1, 12⟩⟩ := by
    decide +kernel
  let grouped : Program := ⟨[.expression ⟨.variable "🍉" ⟨1, 3⟩, some .add,
    some (.variable "🍇" ⟨1, 7⟩), true, ⟨1, 5⟩⟩ ⟨1, 1⟩, .index 0 ⟨1, 11⟩], ⟨1, 1⟩⟩
  let bare : Program := ⟨[.expression ⟨.variable "🍉" ⟨1, 1⟩, some .add,
    some (.variable "🍇" ⟨1, 5⟩), false, ⟨1, 3⟩⟩ ⟨1, 3⟩, .index 0 ⟨1, 7⟩], ⟨1, 1⟩⟩
  have readsGrouped : Program.ofSource "🚧 🍉 ➕ 🍇 🚧 🔎 0️⃣" = .ok grouped := by
    rw [Program.ofSource, hgrouped]
    rfl
  have readsBare : Program.ofSource "🍉 ➕ 🍇 🔎 0️⃣" = .ok bare := by
    rw [Program.ofSource, hbare]
    rfl
  have compilesGrouped : compile .plain "🚧 🍉 ➕ 🍇 🚧 🔎 0️⃣" = .ok "(🍉+🍇)[0]" := by
    rw [compile, readsGrouped]
    decide +kernel
  have compilesBare : compile .plain "🍉 ➕ 🍇 🔎 0️⃣" = .ok "🍉+🍇[0]" := by
    rw [compile, readsBare]
    decide +kernel
  have hwhole := read_compile_whole_iff readsGrouped compilesGrouped (by decide)
  have htight := read_compile_whole_iff readsBare compilesBare (by decide)
  constructor
  · apply hwhole.mpr
    have hlists : grouped.lists = [grouped.statements] := rfl
    intro ns hns n k q hinfix
    rw [hlists, List.mem_singleton] at hns
    subst hns
    have heq : [n, .index k q] = grouped.statements := hinfix.eq_of_length rfl
    obtain ⟨rfl, -⟩ := List.cons.inj heq
    rfl
  · intro hread
    have hfirm := htight.mp hread bare.statements (by simp [Program.lists])
    exact absurd (hfirm _ 0 ⟨1, 7⟩ (List.infix_refl _)) (by decide)

/-- A subscript behind a negation is taken of what is negated. -/
theorem read_compile_negation :
    compile .plain "✅ 🚫 🔎 0️⃣" = .ok "!true[0]" ∧
      Js.read "!true[0]" =
        some [.evaluate (.negation (.subscript (.boolean true) (.number 0)))] := by
  have htokens : tokenize "✅ 🚫 🔎 0️⃣" =
      ⟨[⟨.boolean true, ⟨1, 1⟩⟩, ⟨.operator .not, ⟨1, 3⟩⟩, ⟨.index, ⟨1, 5⟩⟩, ⟨.digit 0, ⟨1, 7⟩⟩],
        ⟨1, 10⟩⟩ := by
    decide +kernel
  let program : Program := ⟨[.expression ⟨.boolean true ⟨1, 1⟩, some .not, none, false, ⟨1, 3⟩⟩
    ⟨1, 3⟩, .index 0 ⟨1, 5⟩], ⟨1, 1⟩⟩
  have hsource : Program.ofSource "✅ 🚫 🔎 0️⃣" = .ok program := by
    rw [Program.ofSource, htokens]
    rfl
  have hscript : compile .plain "✅ 🚫 🔎 0️⃣" = .ok "!true[0]" := by
    rw [compile, hsource]
    decide +kernel
  exact ⟨hscript, read_compile_tight hsource hscript (by decide)⟩

end Subscripts

end Pictoscript
