import Pictoscript.Proofs.JavaScript.Agreement

/-! # What the subscripts of a script belong to

A subscript stands in a list behind the value that it is taken of, and its text
is written behind the text of that value. In JavaScript a subscript binds tighter
than any operator. So it belongs to the whole value if this is one operand of the
script, and to the last operand alone if the value is an operation that was
written without barriers: rendering puts no parentheses around it here, although
it does where the operation is an operand.

The trees of scripts are given for both ways of attaching subscripts, `whole`
and `tight`. This module shows that every script is read in the tight way.
-/

namespace Pictoscript

namespace Js

/-! ## Subscripts behind an operand -/

def brackets : List Nat → String
  | [] => ""
  | k :: ks => s!"[{k}]" ++ brackets ks

def Expr.subscripted (e : Expr) : List Nat → Expr
  | [] => e
  | k :: ks => (Expr.subscript e (.number k)).subscripted ks

variable {text : String} {e : Expr}

theorem isOperand_subscript (h : IsOperand text e) (k : Nat) :
    IsOperand (text ++ s!"[{k}]") (.subscript e (.number k)) := by
  obtain ⟨⟨ts, hts, hrun⟩, c, cs, htext, hc⟩ := h
  obtain ⟨⟨us, hus, hrun'⟩, -⟩ := isOperand_number k
  have hchars : (text ++ s!"[{k}]").toList =
      text.toList ++ '[' :: ((toString k).toList ++ [']']) := by
    rw [String.toList_append]
    congr 1
    show ("[" ++ toString k ++ "]").toList = _
    simp
  refine ⟨⟨ts ++ .opening .square :: (us ++ [.closing .square]), ?_, ?_⟩, c, ?_, ?_, hc⟩
  · rw [hchars]
    refine hts.append ?_ (forall_head?_cons (by decide) _)
    exact lexes_bracketed hus (by decide) (by decide) (by decide) (fun _ => rfl) fun _ => rfl
  · intro state hready
    have hopen : openBracket .square (state.pushAll [.operand e]) = state.enter (.subscript e) :=
      rfl
    have hinner : (state.enter (.subscript e)).Ready := by
      intro p hp
      cases hp
    rw [run_append, hrun state hready, Option.bind_some, run_opening, hopen, run_append,
      hrun' _ hinner, Option.bind_some]
    rfl
  · exact cs ++ '[' :: ((toString k).toList ++ [']'])
  · rw [hchars, htext]
    rfl

theorem IsOperand.subscripted (h : IsOperand text e) (ks : List Nat) :
    IsOperand (text ++ brackets ks) (e.subscripted ks) := by
  induction ks generalizing text e with
  | nil => simpa [brackets, Expr.subscripted] using h
  | cons k ks ih =>
      rw [brackets, ← String.append_assoc]
      exact ih (isOperand_subscript h k)

end Js

/-! ## Trees of scripts -/

namespace Subscripts

open Grammar LeftToRight

def offsets : List Node → List Nat
  | .index k _ :: ns => k :: offsets ns
  | _ => []

/-- Subscripts belong to all of the value before them. -/
def whole (_bare : Bool) (ks : List Nat) (e : Js.Expr) : Js.Expr := e.subscripted ks

/-- Subscripts belong to the last operand of an operation without barriers. -/
def tight : (bare : Bool) → List Nat → Js.Expr → Js.Expr
  | true, ks, .negation e => .negation (e.subscripted ks)
  | true, ks, .operation op e f => .operation op e (f.subscripted ks)
  | _, ks, e => e.subscripted ks

section

variable (attach : Bool → List Nat → Js.Expr → Js.Expr) (sink : Sink)

mutual
/-- The expression that a node stands for. Nodes that are no values stand for
nothing in particular. -/
def value : Node → Js.Expr
  | .number v _ => .number v.toNat
  | .text v _ => .text v
  | .boolean v _ => .boolean v
  | .variable x _ => .name x
  | .array ns _ => .array (items ns)
  | .expression content _ => operation content
  | .call name ns _ => .call (.name name.text) (items ns)
  | .index .. | .declaration .. | .assignment .. | .branch .. | .loop .. | .definition ..
  | .print .. => .array []
def operation : Expression → Js.Expr
  | ⟨left, none, none, _, _⟩ => value left
  | ⟨left, some _, none, _, _⟩ => .negation (value left)
  | ⟨left, op, some right, _, _⟩ => .operation (op.getD .not) (value left) (value right)
/-- The members of a list, each with the subscripts that stand behind it. -/
def items : List Node → List Js.Expr
  | [] => []
  | .index _ _ :: ns => items ns
  | n :: ns => attach n.isBareOperation (offsets ns) (value n) :: items ns
end

mutual
def statement : Node → Js.Statement
  | .declaration name v _ => .declare name.text (value attach v)
  | .assignment target v _ => .assign target.text (value attach v)
  | .branch condition consequent none _ =>
    .branch (operation attach condition) (block consequent) none
  | .branch condition consequent (some alternative) _ =>
    .branch (operation attach condition) (block consequent) (some (block alternative))
  | .loop condition body _ => .loop (operation attach condition) (block body)
  | .definition name parameters body _ =>
    .function name.text (parameters.map Name.text) (block body)
  | .print v _ => .evaluate (.call (.name sink.function) [value attach v])
  | n => .evaluate (value attach n)
/-- The statements of a list. Only a value has subscripts behind it. -/
def block : List Node → List Js.Statement
  | [] => []
  | .index _ _ :: ns => block ns
  | n :: ns =>
    (if n.isValue then .evaluate (attach n.isBareOperation (offsets ns) (value attach n))
    else statement n) :: block ns
end

end

/-! ## Equations -/

section

variable {attach : Bool → List Nat → Js.Expr → Js.Expr} {sink : Sink} {n : Node}

theorem value_group (n : Node) (p : Position) :
    value attach (.expression (.group n) p) = value attach n := by
  cases n with
  | expression content q =>
      obtain ⟨left, op, right, grouped, r⟩ := content
      cases grouped with
      | true => rfl
      | false => cases op <;> cases right <;> rfl
  | _ => rfl

theorem operation_ofNode (n : Node) : operation attach (.ofNode n) = value attach n := by
  cases n <;> rfl

theorem items_cons (h : n.isIndex = false) (ns : List Node) : items attach (n :: ns) =
    attach n.isBareOperation (offsets ns) (value attach n) :: items attach ns := by
  cases n with
  | index k p => cases h
  | _ => rfl

theorem block_cons (h : n.isIndex = false) (ns : List Node) : block attach sink (n :: ns) =
    (if n.isValue then .evaluate (attach n.isBareOperation (offsets ns) (value attach n))
    else statement attach sink n) :: block attach sink ns := by
  cases n with
  | index k p => cases h
  | _ => rfl

theorem offsets_cons (h : n.isIndex = false) (ns : List Node) : offsets (n :: ns) = [] := by
  cases n with
  | index k p => cases h
  | _ => rfl

theorem isIndex_iff : n.isIndex = true ↔ ∃ k p, n = .index k p := by
  cases n <;> simp [Node.isIndex]

end

/-! ## Texts of values -/

variable {sink : Sink} {n : Node} {e : Js.Expr}

/-- The text of the node is read as the expression, and with subscripts behind it
as the expression with the subscripts attached tightly. -/
def Carries (sink : Sink) (n : Node) (e : Js.Expr) : Prop :=
  Fits sink n e ∧ Emits sink n fun text =>
    ∀ ks, Js.IsValue (text ++ Js.brackets ks) (tight n.isBareOperation ks e)

/-- Subscripts behind an operand of the script belong to it. -/
theorem carries_of_fits (hbare : n.isBareOperation = false) (h : Fits sink n e) :
    Carries sink n e := by
  refine ⟨h, ?_⟩
  intro hnamed s text t hrender ks
  have hoperand := (h hnamed hrender).2
  rw [Script.asOperand, hbare] at hoperand
  rw [hbare]
  exact (hoperand.subscripted ks).isValue

theorem carries_negated (h : Carries sink n e) (p q : Position) :
    Carries sink (.expression ⟨n, some .not, none, false, p⟩ q) (.negation e) := by
  refine ⟨fits_negated h.1 p q, ?_⟩
  intro hnamed s text t hrender ks
  obtain ⟨inner, hinner, rfl⟩ := Rendering.map_eq_ok_iff.mp hrender
  have hoperand := (h.1 ((forall_nodes_expression isNamed_expression).mp hnamed) hinner).2
  have hvalue := Js.isValue_negation (hoperand.subscripted ks)
  rw [← String.append_assoc] at hvalue
  exact hvalue

theorem carries_joined {left right : Node} {f : Js.Expr} {op : Operator}
    (hleft : Carries sink left e) (hright : Carries sink right f) (p q : Position) :
    Carries sink (.expression ⟨left, some op, some right, false, p⟩ q) (.operation op e f) := by
  refine ⟨fits_joined hleft.1 hright.1 p q, ?_⟩
  intro hnamed s text t hrender ks
  rw [forall_nodes_expression isNamed_expression, Expression.nodes,
    List.forall_mem_append] at hnamed
  change Script.expression sink _ s = _ at hrender
  by_cases hop : op = .not
  · subst hop
    cases hrender
  · rw [Script.expression_of_ne_not hop, Rendering.bind_eq_ok_iff] at hrender
    obtain ⟨first, u, hfirst, hrest⟩ := hrender
    rw [Rendering.map_eq_ok_iff] at hrest
    obtain ⟨second, hsecond, rfl⟩ := hrest
    have hoperand := (hright.1 hnamed.2 hsecond).2
    have hvalue := Js.isValue_operation hop (hleft.1 hnamed.1 hfirst).2 (hoperand.subscripted ks)
    rw [← String.append_assoc] at hvalue
    exact hvalue

/-- A subscript alone has no text. -/
theorem carries_index (k : Nat) (p : Position) : Carries sink (.index k p) e := by
  constructor <;> intro _ s text t hrender <;> cases hrender

/-! ## Texts of lists -/

/-- Fragments, last first, with subscripts behind the last one. -/
def extended (ks : List Nat) : List Script.Fragment → List Script.Fragment
  | [] => []
  | last :: before => ⟨last.text ++ Js.brackets ks, last.isValue⟩ :: before

theorem extended_nil (done : List Script.Fragment) : extended [] done = done := by
  cases done with
  | nil => rfl
  | cons last before => simp [extended, Js.brackets]

/-- The list becomes texts that stand for the members of the other list, except
that the subscripts at its front go to what was there before. -/
def Collected {α : Type} (sink : Sink) (P : String → α → Prop) (ns : List Node) (as : List α) :
    Prop :=
  (∀ m ∈ Node.among ns, IsNamed m) → ∀ {done s fragments t},
    Script.members sink done ns s = (.ok fragments, t) →
      ∃ texts, Script.texts fragments = Script.texts (extended (offsets ns) done) ++ texts ∧
        List.Forall₂ P texts as

variable {α : Type} {P : String → α → Prop} {ns : List Node} {as : List α}

theorem Collected.yields (h : Collected sink P ns as) : Yields sink P ns as := by
  intro hnamed s fragments t hrender
  obtain ⟨texts, htexts, hall⟩ := h hnamed hrender
  rw [htexts]
  exact hall

theorem collected_nil : Collected sink P [] [] := by
  intro _ done s fragments t hrender
  cases hrender
  exact ⟨[], by simp [offsets, extended_nil], .nil⟩

/-- A subscript takes its place behind the last fragment, which is a value. -/
theorem members_index {k : Nat} {p : Position} {done : List Script.Fragment} {s t : Scopes}
    {fragments : List Script.Fragment}
    (h : Script.members sink done (.index k p :: ns) s = (.ok fragments, t)) :
    ∃ last before, done = last :: before ∧ last.isValue = true ∧
      Script.members sink (⟨last.text ++ s!"[{k}]", true⟩ :: before) ns s = (.ok fragments, t) := by
  obtain ⟨done', s', hsubscript, hrest⟩ := Rendering.bind_eq_ok_iff.mp h
  cases done with
  | nil => cases hsubscript
  | cons last before =>
      rw [Rendering.ofExcept, Script.subscript] at hsubscript
      split at hsubscript
      · next hvalue =>
        cases hsubscript
        exact ⟨last, before, rfl, hvalue, hrest⟩
      · cases hsubscript

theorem Collected.index (h : Collected sink P ns as) (k : Nat) (p : Position) :
    Collected sink P (.index k p :: ns) as := by
  intro hnamed done s fragments t hrender
  obtain ⟨last, before, rfl, hvalue, hrest⟩ := members_index hrender
  rw [Node.among, List.forall_mem_append] at hnamed
  obtain ⟨texts, htexts, hall⟩ := h hnamed.2 hrest
  refine ⟨texts, ?_, hall⟩
  rw [htexts, offsets, extended, extended, Js.brackets, String.append_assoc]
  simp [Script.texts]

theorem isValue_of_members {last : Script.Fragment} {before fragments : List Script.Fragment}
    {s t : Scopes} (h : Script.members sink (last :: before) ns s = (.ok fragments, t)) :
    offsets ns = [] ∨ last.isValue = true := by
  cases ns with
  | nil => exact .inl rfl
  | cons n ns =>
      cases hindex : n.isIndex with
      | false => exact .inl (offsets_cons hindex ns)
      | true =>
          obtain ⟨k, p, rfl⟩ := isIndex_iff.mp hindex
          obtain ⟨_, _, heq, hvalue, -⟩ := members_index h
          cases heq
          exact .inr hvalue

/-- A member with the subscripts behind it. -/
theorem Collected.cons {a : List Nat → α} (h : Collected sink P ns as)
    (hindex : n.isIndex = false)
    (hn : Emits sink n fun text => ∀ ks, (ks = [] ∨ n.isValue = true) →
      P (text ++ Js.brackets ks) (a ks)) :
    Collected sink P (n :: ns) (a (offsets ns) :: as) := by
  intro hnamed done s fragments t hrender
  rw [Node.among, List.forall_mem_append] at hnamed
  rw [Script.members_cons hindex, Rendering.bind_eq_ok_iff] at hrender
  obtain ⟨text, u, hfirst, hrest⟩ := hrender
  obtain ⟨texts, htexts, hall⟩ := h hnamed.2 hrest
  have hmember := hn hnamed.1 hfirst (offsets ns) (isValue_of_members hrest)
  refine ⟨(text ++ Js.brackets (offsets ns)) :: texts, ?_, .cons hmember hall⟩
  rw [htexts, offsets_cons hindex, extended_nil]
  simp [Script.texts, extended]

/-! ## Texts of phrases -/

def Denotes (sink : Sink) : Phrase → Prop
  | .operand _ n | .chain _ n | .expression _ n => Carries sink n (value tight n)
  | .items _ ns => Collected sink Js.IsValue ns (items tight ns)
  | .parameters _ => True
  | .statement n => Emits sink n fun text => ∀ ks, (ks = [] ∨ n.isValue = true) →
      Js.IsStatement (text ++ Js.brackets ks)
        (if n.isValue then .evaluate (tight n.isBareOperation ks (value tight n))
        else statement tight sink n)
  | .block ns => Collected sink Js.IsStatement ns (block tight sink ns)

/-- A statement that is no value has no subscripts behind it. -/
theorem denotes_statement (hvalue : n.isValue = false)
    (h : Emits sink n (Js.IsStatement · (statement tight sink n))) :
    Denotes sink (.statement n) := by
  intro hnamed s text t hrender ks hks
  rw [hvalue] at hks ⊢
  obtain rfl : ks = [] := by simpa using hks
  simpa [Js.brackets] using h hnamed hrender

theorem denotes_value (hvalue : n.isValue = true) (h : Carries sink n (value tight n)) :
    Denotes sink (.statement n) := by
  intro hnamed s text t hrender ks _
  rw [if_pos hvalue]
  exact Js.isStatement_evaluate (h.2 hnamed hrender ks)

theorem isValue_of_written_operand {g : Bool} {ts : List (Located Token)}
    (h : Written (.operand g n) ts) : n.isValue = true := by
  cases h <;> rfl

theorem isValue_of_written_expression {g : Bool} {ts : List (Located Token)}
    (h : Written (.expression g n) ts) : n.isValue = true := by
  cases h with
  | index => rfl
  | ofChain written =>
      cases written with
      | first written => exact isValue_of_written_operand written
      | joined => rfl
      | negated => rfl

theorem denotes_of_written {φ : Phrase} {ts : List (Located Token)} (h : Written φ ts) :
    Denotes sink φ := by
  induction h with
  | number _ _ => exact carries_of_fits rfl (fits_number _ _)
  | text value p => exact carries_of_fits rfl (fits_text value p)
  | boolean value p => exact carries_of_fits rfl (fits_boolean value p)
  | reference _ => exact carries_of_fits rfl (fits_variable _ _)
  | array p q _ ih => exact carries_of_fits rfl (fits_array ih.yields p)
  | namedCall q r _ _ ih => exact carries_of_fits rfl (fits_call ih.yields _)
  | markedCall p q r _ _ ih => exact carries_of_fits rfl (fits_call ih.yields p)
  | group p q _ ih =>
      rw [Denotes, value_group]
      exact carries_of_fits (Script.isBareOperation_group _ p) (fits_group ih.1 p)
  | first _ ih => exact ih
  | joined p _ _ _ ihl ihr => exact carries_joined ihl ihr p p
  | negated p _ ih => exact carries_negated ih p p
  | index p _ _ => exact carries_index _ p
  | ofChain _ ih => exact ih
  | noItems => exact collected_nil
  | comma p _ ih => exact ih
  | @item g n ns ts us written _ _ ih ihs =>
      cases hindex : n.isIndex with
      | true =>
          obtain ⟨k, p, rfl⟩ := isIndex_iff.mp hindex
          exact ihs.index k p
      | false =>
          rw [Denotes, items_cons hindex]
          exact ihs.cons (a := fun ks => tight n.isBareOperation ks (value tight n)) hindex
            fun hnamed _ _ _ hrender ks _ => ih.2 hnamed hrender ks
  | noParameters => trivial
  | parameter p _ _ _ => trivial
  | declaration p q _ _ ih => exact denotes_statement rfl (emits_declaration ih.1 p)
  | assignment p q _ _ ih => exact denotes_statement rfl (emits_assignment ih.1 p)
  | branch p q r _ _ ihc ih =>
      apply denotes_statement rfl
      rw [statement, operation_ofNode]
      exact emits_branch ihc.1 ih.yields p
  | branchElse p q r s _ _ _ ihc ih iho =>
      apply denotes_statement rfl
      rw [statement, operation_ofNode]
      exact emits_branchElse ihc.1 ih.yields iho.yields p
  | loop p q r _ _ ihc ih =>
      apply denotes_statement rfl
      rw [statement, operation_ofNode]
      exact emits_loop ihc.1 ih.yields p
  | definition p q r _ _ _ _ ih => exact denotes_statement rfl (emits_definition ih.yields p)
  | print p _ ih => exact denotes_statement rfl (emits_print ih.1 p)
  | marked _ written ih => exact denotes_value (isValue_of_written_operand written) ih
  | plain _ written ih => exact denotes_value (isValue_of_written_expression written) ih
  | noStatements => exact collected_nil
  | @statement n ns ts us _ _ _ ih ihs =>
      cases hindex : n.isIndex with
      | true =>
          obtain ⟨k, p, rfl⟩ := isIndex_iff.mp hindex
          exact ihs.index k p
      | false =>
          rw [Denotes, block_cons hindex]
          exact ihs.cons (a := fun ks =>
            if n.isValue then Js.Statement.evaluate (tight n.isBareOperation ks (value tight n))
            else statement tight sink n) hindex ih

/-- A text that compiles is compiled to the script of its program. -/
theorem script_of_compile {source script : String} {p : Program}
    (hsource : Program.ofSource source = .ok p) (hscript : compile sink source = .ok script) :
    p.script sink = .ok script := by
  simp only [compile, hsource] at hscript
  split at hscript
  · cases hscript
  · next heq =>
    cases hscript
    exact heq

/-- The script of a text without asterisks in its names is read, and its
subscripts belong to the last operand before them. -/
theorem read_compile_tight {source script : String} {p : Program}
    (hsource : Program.ofSource source = .ok p) (hscript : compile sink source = .ok script)
    (hstar : ∀ n ∈ p.nodes, ∀ x ∈ n.mentions, '*' ∉ x.toList) :
    Js.read script = some (block tight sink p.statements) := by
  have hnamed : ∀ n ∈ p.nodes, IsNamed n := fun n hn x hx =>
    Js.isName_of_isSymbol (Program.isSymbol_of_mentions hsource hn x hx) (hstar n hn x hx)
  have hcollected : Collected sink Js.IsStatement p.statements (block tight sink p.statements) :=
    denotes_of_written (Program.ofSource_eq_ok_iff.mp hsource).1
  have hrendered : p.script sink = .ok script := script_of_compile hsource hscript
  rw [Program.script] at hrendered
  split at hrendered
  · next fragments t hrender =>
    cases hrendered
    exact Js.read_intercalate (hcollected.yields hnamed hrender)
  · cases hrendered

end Subscripts

end Pictoscript
