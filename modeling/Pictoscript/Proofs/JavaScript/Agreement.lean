import Pictoscript.Compile
import Pictoscript.Proofs.Grammar.Complete
import Pictoscript.Proofs.JavaScript.LeftToRight
import Pictoscript.Proofs.JavaScript.Templates
import Pictoscript.Proofs.Rendering

/-! # Scripts mean what their sources mean

JavaScript gives ranks to its operators and the pictograph language does not, yet
the two agree: a script, read by the rules of JavaScript, is the left-to-right
meaning of the tokens that it was compiled from. The parentheses that rendering
puts around an operand are what makes this true, since with them every row of a
script has at most one operator.

Excluded are texts with subscripts, and names that have an asterisk, which would
be an operator in the script.
-/

namespace Pictoscript

/-! ## Names -/

/-- A run of symbols without asterisk is a name of the script. -/
theorem Js.isName_of_isSymbol {x : String} (h : Pictograph.isSymbol x.toList = true)
    (hstar : '*' ∉ x.toList) : Js.IsName x := by
  simp only [Pictograph.isSymbol, Bool.and_eq_true, Bool.or_eq_true, List.all_eq_true,
    List.any_eq_true, List.contains_eq_mem, decide_eq_true_eq] at h
  obtain ⟨hall, hany⟩ := h
  refine ⟨?_, ?_⟩
  · intro c hc
    rcases hall c hc with (hpictographic | hcomponent) | ⟨-, hbase⟩
    · exact isWordChar_of_class Pictograph.isPictographic (by decide) hpictographic
    · exact isWordChar_of_class Pictograph.isComponent (by decide) hcomponent
    · have hne : c ≠ '*' := by
        rintro rfl
        exact hstar hc
      simp only [Pictograph.isKeycapBase, Bool.or_eq_true, beq_iff_eq] at hbase
      rcases hbase with (hdigit | rfl) | rfl
      · exact isWordChar_of_class Char.isDigit (by decide) hdigit
      · decide
      · exact absurd rfl hne
  · rcases hany with ⟨c, hc, hpictographic⟩ | hkeycap
    · exact ⟨c, hc, Pictograph.le_toNat_of_inRanges (by decide) hpictographic⟩
    · exact ⟨Pictograph.keycap, hkeycap, by decide⟩

namespace LeftToRight

open Reading Grammar

variable {sink : Sink}

/-! ## Texts of nodes -/

/-- The names that a node mentions are names of the script. -/
def IsNamed (n : Node) : Prop := ∀ x ∈ n.mentions, Js.IsName x

theorem isNamed_expression (content : Expression) (p : Position) :
    IsNamed (.expression content p) := by
  simp [IsNamed, Node.mentions]

/-- Every text that the node is rendered as has the property. -/
def Emits (sink : Sink) (n : Node) (P : String → Prop) : Prop :=
  (∀ m ∈ n.nodes, IsNamed m) → ∀ {s text t}, Script.node sink n s = (.ok text, t) → P text

/-- The text of the node is read as the expression, also where it is an operand. -/
def Fits (sink : Sink) (n : Node) (e : Js.Expr) : Prop :=
  Emits sink n fun text => Js.IsValue text e ∧ Js.IsOperand (Script.asOperand n text) e

variable {n : Node} {e : Js.Expr}

theorem fits_of_operand (hbare : n.isBareOperation = false)
    (h : Emits sink n (Js.IsOperand · e)) : Fits sink n e := by
  intro hnamed s text t hrender
  have hoperand := h hnamed hrender
  refine ⟨hoperand.isValue, ?_⟩
  rw [Script.asOperand, hbare]
  exact hoperand

/-- An operation without barriers gets parentheses where it is an operand. -/
theorem fits_of_bare (hbare : n.isBareOperation = true) (h : Emits sink n (Js.IsValue · e)) :
    Fits sink n e := by
  intro hnamed s text t hrender
  have hvalue := h hnamed hrender
  refine ⟨hvalue, ?_⟩
  rw [Script.asOperand, hbare]
  exact Js.isOperand_parenthesized hvalue

theorem fits_number (value : Nat) (p : Position) :
    Fits sink (.number value p) (.number value) := by
  apply fits_of_operand rfl
  intro _ s text t hrender
  cases hrender
  exact Js.isOperand_number value

theorem fits_text (value : String) (p : Position) :
    Fits sink (.text value p) (.text value) := by
  apply fits_of_operand rfl
  intro _ s text t hrender
  cases hrender
  exact Js.isOperand_quoted value

theorem fits_boolean (value : Bool) (p : Position) :
    Fits sink (.boolean value p) (.boolean value) := by
  apply fits_of_operand rfl
  intro _ s text t hrender
  cases hrender
  exact Js.isOperand_boolean value

theorem fits_variable (x : String) (p : Position) : Fits sink (.variable x p) (.name x) := by
  apply fits_of_operand rfl
  intro hnamed s text t hrender
  cases hrender
  exact Js.isOperand_name (hnamed _ (List.mem_cons_self ..) x (by simp [Node.mentions]))

/-- Barriers leave no trace but the parentheses. -/
theorem fits_group (h : Fits sink n e) (p : Position) :
    Fits sink (.expression (.group n) p) e := by
  apply fits_of_operand (Script.isBareOperation_group n p)
  intro hnamed s text t hrender
  rw [Script.node_group, Rendering.map_eq_ok_iff] at hrender
  obtain ⟨inner, hinner, rfl⟩ := hrender
  exact Js.isOperand_parenthesized (h ((forall_nodes_group isNamed_expression).mp hnamed) hinner).1

theorem fits_negated (h : Fits sink n e) (p q : Position) :
    Fits sink (.expression ⟨n, some .not, none, false, p⟩ q) (.negation e) := by
  apply fits_of_bare rfl
  intro hnamed s text t hrender
  obtain ⟨inner, hinner, rfl⟩ := Rendering.map_eq_ok_iff.mp hrender
  exact Js.isValue_negation (h ((forall_nodes_expression isNamed_expression).mp hnamed) hinner).2

/-- Both operands are operands of the script, so the one operator between them
finds nothing else to take. -/
theorem fits_joined {left right : Node} {f : Js.Expr} {op : Operator} (hleft : Fits sink left e)
    (hright : Fits sink right f) (p q : Position) :
    Fits sink (.expression ⟨left, some op, some right, false, p⟩ q) (.operation op e f) := by
  apply fits_of_bare rfl
  intro hnamed s text t hrender
  rw [forall_nodes_expression isNamed_expression, Expression.nodes,
    List.forall_mem_append] at hnamed
  change Script.expression sink _ s = _ at hrender
  by_cases hop : op = .not
  · subst hop
    cases hrender
  · rw [Script.expression_of_ne_not hop, Rendering.bind_eq_ok_iff] at hrender
    obtain ⟨first, u, hfirst, hrest⟩ := hrender
    rw [Rendering.map_eq_ok_iff] at hrest
    obtain ⟨second, hsecond, rfl⟩ := hrest
    exact Js.isValue_operation hop (hleft hnamed.1 hfirst).2 (hright hnamed.2 hsecond).2

/-! ## Texts of lists -/

/-- The members of the list become texts that stand for the members of the other
list, one by one. -/
def Lists {α : Type} (sink : Sink) (P : String → α → Prop) (ns : List Node) (as : List α) :
    Prop :=
  (∀ m ∈ Node.among ns, IsNamed m) → ∀ {done s fragments t},
    Script.members sink done ns s = (.ok fragments, t) →
      ∃ texts, Script.texts fragments = Script.texts done ++ texts ∧ List.Forall₂ P texts as

variable {α : Type} {P : String → α → Prop}

theorem lists_nil : Lists sink P [] [] := by
  intro _ done s fragments t hrender
  cases hrender
  exact ⟨[], by simp, .nil⟩

theorem Lists.cons {ns : List Node} {a : α} {as : List α} (hindex : n.isIndex = false)
    (h : Emits sink n (P · a)) (hmore : Lists sink P ns as) :
    Lists sink P (n :: ns) (a :: as) := by
  intro hnamed done s fragments t hrender
  rw [Node.among, List.forall_mem_append] at hnamed
  rw [Script.members_cons hindex, Rendering.bind_eq_ok_iff] at hrender
  obtain ⟨text, u, hfirst, hrest⟩ := hrender
  obtain ⟨texts, htexts, hall⟩ := hmore hnamed.2 hrest
  refine ⟨text :: texts, ?_, .cons (h hnamed.1 hfirst) hall⟩
  rw [htexts]
  simp [Script.texts]

/-- The texts of a whole list stand for the members of the other list. -/
def Yields (sink : Sink) (P : String → α → Prop) (ns : List Node) (as : List α) : Prop :=
  (∀ m ∈ Node.among ns, IsNamed m) → ∀ {s fragments t},
    Script.members sink [] ns s = (.ok fragments, t) → List.Forall₂ P (Script.texts fragments) as

theorem Lists.yields {ns : List Node} {as : List α} (h : Lists sink P ns as) :
    Yields sink P ns as := by
  intro hnamed s fragments t hrender
  obtain ⟨texts, htexts, hall⟩ := h hnamed hrender
  rw [htexts]
  exact hall

theorem fits_array {ns : List Node} {es : List Js.Expr} (h : Yields sink Js.IsValue ns es)
    (p : Position) : Fits sink (.array ns p) (.array es) := by
  apply fits_of_operand rfl
  intro hnamed s text t hrender
  obtain ⟨fragments, hfragments, rfl⟩ := Rendering.map_eq_ok_iff.mp hrender
  exact Js.isOperand_array (h (List.forall_mem_cons.mp hnamed).2 hfragments)

theorem fits_call {name : Name} {ns : List Node} {es : List Js.Expr}
    (h : Yields sink Js.IsValue ns es) (p : Position) :
    Fits sink (.call name ns p) (.call (.name name.text) es) := by
  apply fits_of_operand rfl
  intro hnamed s text t hrender
  obtain ⟨hown, hbelow⟩ := List.forall_mem_cons.mp hnamed
  have hname : Js.IsName name.text := hown name.text (by simp [Node.mentions])
  obtain ⟨_, u, -, hrest⟩ := Rendering.bind_eq_ok_iff.mp hrender
  obtain ⟨fragments, hfragments, rfl⟩ := Rendering.map_eq_ok_iff.mp hrest
  exact Js.isOperand_call hname.isWord hname.ofWord (h hbelow hfragments)

/-! ## Texts of statements -/

section

variable {name : Name} {condition : Node} {ns os : List Node} {ss ts : List Js.Statement}

theorem emits_evaluate (h : Fits sink n e) : Emits sink n (Js.IsStatement · (.evaluate e)) := by
  intro hnamed s text t hrender
  exact Js.isStatement_evaluate (h hnamed hrender).1

theorem emits_declaration (h : Fits sink n e) (p : Position) :
    Emits sink (.declaration name n p) (Js.IsStatement · (.declare name.text e)) := by
  intro hnamed s text t hrender
  obtain ⟨hown, hbelow⟩ := List.forall_mem_cons.mp hnamed
  obtain ⟨value, u, hvalue, hrest⟩ := Rendering.bind_eq_ok_iff.mp hrender
  obtain ⟨_, -, rfl⟩ := Rendering.map_eq_ok_iff.mp hrest
  exact Js.isStatement_declare (hown name.text (by simp [Node.mentions])) (h hbelow hvalue).1

theorem emits_assignment (h : Fits sink n e) (p : Position) :
    Emits sink (.assignment name n p) (Js.IsStatement · (.assign name.text e)) := by
  intro hnamed s text t hrender
  obtain ⟨hown, hbelow⟩ := List.forall_mem_cons.mp hnamed
  obtain ⟨value, hvalue, rfl⟩ := Rendering.map_eq_ok_iff.mp hrender
  exact Js.isStatement_assign (hown name.text (by simp [Node.mentions])) (h hbelow hvalue).1

/-- Printing is a call of the function of the sink. -/
theorem emits_print (h : Fits sink n e) (p : Position) :
    Emits sink (.print n p)
      (Js.IsStatement · (.evaluate (.call (.name sink.function) [e]))) := by
  intro hnamed s text t hrender
  obtain ⟨value, hvalue, rfl⟩ := Rendering.map_eq_ok_iff.mp hrender
  have hvalues : List.Forall₂ Js.IsValue [value] [e] :=
    .cons (h (List.forall_mem_cons.mp hnamed).2 hvalue).1 .nil
  have hword : Js.IsWord sink.function := by
    cases sink
    · exact Js.isWord_of_all (by decide) (by decide)
    · exact Js.isWord_of_all (by decide) (by decide)
  have hpiece : Js.Piece.ofWord sink.function = .operand (.name sink.function) := by
    cases sink <;> rfl
  have htext : sink.callee ++ value ++ ")" =
      sink.function ++ Script.parenthesized (",".intercalate [value]) := by
    have hcallee : sink.callee = sink.function ++ "(" := by
      cases sink <;> rfl
    rw [hcallee, Script.parenthesized, String.intercalate_singleton]
    simp only [String.append_assoc]
  rw [htext]
  exact Js.isStatement_evaluate (Js.isOperand_call hword hpiece hvalues).isValue

theorem emits_branch (hcondition : Fits sink condition e) (h : Yields sink Js.IsStatement ns ss)
    (p : Position) :
    Emits sink (.branch (.ofNode condition) ns none p)
      (Js.IsStatement · (.branch e ss none)) := by
  intro hnamed s text t hrender
  obtain ⟨-, hbelow⟩ := List.forall_mem_cons.mp hnamed
  rw [Node.descendants, List.forall_mem_append, forall_nodes_ofNode isNamed_expression] at hbelow
  obtain ⟨test, u, htest, hrest⟩ := Rendering.bind_eq_ok_iff.mp hrender
  obtain ⟨fragments, hblock, rfl⟩ := Rendering.map_eq_ok_iff.mp hrest
  rw [Script.expression_ofNode] at htest
  obtain ⟨_, hfragments⟩ := Rendering.inBlock_eq_ok hblock
  exact Js.isStatement_branch (hcondition hbelow.1 htest).1 (h hbelow.2 hfragments)

theorem emits_branchElse (hcondition : Fits sink condition e)
    (h : Yields sink Js.IsStatement ns ss) (hothers : Yields sink Js.IsStatement os ts)
    (p : Position) :
    Emits sink (.branch (.ofNode condition) ns (some os) p)
      (Js.IsStatement · (.branch e ss (some ts))) := by
  intro hnamed s text t hrender
  obtain ⟨-, hbelow⟩ := List.forall_mem_cons.mp hnamed
  rw [Node.descendants, List.forall_mem_append, List.forall_mem_append,
    forall_nodes_ofNode isNamed_expression] at hbelow
  obtain ⟨test, u, htest, hrest⟩ := Rendering.bind_eq_ok_iff.mp hrender
  obtain ⟨fragments, v, hblock, hmore⟩ := Rendering.bind_eq_ok_iff.mp hrest
  obtain ⟨others, hblock', rfl⟩ := Rendering.map_eq_ok_iff.mp hmore
  rw [Script.expression_ofNode] at htest
  obtain ⟨_, hfragments⟩ := Rendering.inBlock_eq_ok hblock
  obtain ⟨_, hfragments'⟩ := Rendering.inBlock_eq_ok hblock'
  exact Js.isStatement_branchElse (hcondition hbelow.1.1 htest).1
    (h hbelow.1.2 hfragments) (hothers hbelow.2 hfragments')

theorem emits_loop (hcondition : Fits sink condition e) (h : Yields sink Js.IsStatement ns ss)
    (p : Position) :
    Emits sink (.loop (.ofNode condition) ns p) (Js.IsStatement · (.loop e ss)) := by
  intro hnamed s text t hrender
  obtain ⟨-, hbelow⟩ := List.forall_mem_cons.mp hnamed
  rw [Node.descendants, List.forall_mem_append, forall_nodes_ofNode isNamed_expression] at hbelow
  obtain ⟨test, u, htest, hrest⟩ := Rendering.bind_eq_ok_iff.mp hrender
  obtain ⟨fragments, hblock, rfl⟩ := Rendering.map_eq_ok_iff.mp hrest
  rw [Script.expression_ofNode] at htest
  obtain ⟨_, hfragments⟩ := Rendering.inBlock_eq_ok hblock
  exact Js.isStatement_loop (hcondition hbelow.1 htest).1 (h hbelow.2 hfragments)

theorem emits_definition {parameters : List Name} (h : Yields sink Js.IsStatement ns ss)
    (p : Position) :
    Emits sink (.definition name parameters ns p)
      (Js.IsStatement · (.function name.text (parameters.map Name.text) ss)) := by
  intro hnamed s text t hrender
  obtain ⟨hown, hbelow⟩ := List.forall_mem_cons.mp hnamed
  obtain ⟨hname, hparameters⟩ := List.forall_mem_cons.mp hown
  obtain ⟨_, u, -, hbound⟩ := Rendering.bind_eq_ok_iff.mp hrender
  obtain ⟨_, v, -, hrest⟩ := Rendering.bind_eq_ok_iff.mp hbound
  obtain ⟨fragments, hblock, rfl⟩ := Rendering.map_eq_ok_iff.mp hrest
  obtain ⟨_, hbody⟩ := Rendering.inBlock_eq_ok hblock
  obtain ⟨_, w, -, hfragments⟩ := Rendering.bind_eq_ok_iff.mp hbody
  exact Js.isStatement_function hname hparameters (h hbelow hfragments)

end

/-! ## Meanings and texts -/

/-- The tokens write a tree whose text is read as the meaning. Steps are taken
behind any chain for which this holds. -/
def Agrees (sink : Sink) (ts : List (Located Token)) : Part → Prop
  | .operand g e => ∃ n, Written (.operand g n) ts ∧ Fits sink n e
  | .steps g steps => ∀ {left vs e}, Written (.chain g left) vs → Fits sink left e →
      ∃ n, Written (.chain g n) (vs ++ ts) ∧ Fits sink n (steps.foldl Step.apply e)
  | .chain g e => ∃ n, Written (.chain g n) ts ∧ Fits sink n e
  | .items g es => ∃ ns, Written (.items g ns) ts ∧ Lists sink Js.IsValue ns es
  | .parameters names => ∃ ps, Written (.parameters ps) ts ∧ ps.map Name.text = names
  | .statement s => ∃ n, Written (.statement n) ts ∧ n.isIndex = false ∧
      Emits sink n (Js.IsStatement · s)
  | .block ss => ∃ ns, Written (.block ns) ts ∧ Lists sink Js.IsStatement ns ss

theorem isIndex_of_written_operand {g : Bool} {ts : List (Located Token)}
    (h : Written (.operand g n) ts) : n.isIndex = false := by
  cases h <;> rfl

theorem isIndex_of_written_chain {g : Bool} {ts : List (Located Token)}
    (h : Written (.chain g n) ts) : n.isIndex = false := by
  cases h with
  | first written => exact isIndex_of_written_operand written
  | joined => rfl
  | negated => rfl

/-- Whatever has a meaning is written as a tree with this meaning. -/
theorem agrees_of_means {part : Part} {ts : List (Located Token)} (h : Means sink part ts) :
    Agrees sink ts part := by
  induction h with
  | number written bounded => exact ⟨_, .number written bounded, fits_number _ _⟩
  | text value p => exact ⟨_, .text value p, fits_text value p⟩
  | boolean value p => exact ⟨_, .boolean value p, fits_boolean value p⟩
  | reference written => exact ⟨_, .reference written, fits_variable _ _⟩
  | array p q _ ih =>
      obtain ⟨ns, hwritten, hlists⟩ := ih
      exact ⟨_, .array p q hwritten, fits_array hlists.yields p⟩
  | namedCall q r named _ ih =>
      obtain ⟨ns, hwritten, hlists⟩ := ih
      exact ⟨_, .namedCall q r named hwritten, fits_call hlists.yields _⟩
  | markedCall p q r named _ ih =>
      obtain ⟨ns, hwritten, hlists⟩ := ih
      exact ⟨_, .markedCall p q r named hwritten, fits_call hlists.yields p⟩
  | group p q _ ih =>
      obtain ⟨n, hwritten, hfits⟩ := ih
      exact ⟨_, .group p q (.ofChain hwritten), fits_group hfits p⟩
  | noSteps =>
      intro left vs e hwritten hfits
      exact ⟨left, by rwa [List.append_nil], hfits⟩
  | join p _ _ takesRight ihs ih =>
      intro left vs e hwritten hfits
      -- The new step is the last one of the fold, and the outermost operation of the tree.
      obtain ⟨n, hn, hbefore⟩ := ihs hwritten hfits
      obtain ⟨right, hright, hoperand⟩ := ih
      rw [← List.append_assoc, List.foldl_append]
      exact ⟨_, .joined p hn hright takesRight, fits_joined hbefore hoperand p p⟩
  | negate p _ ihs =>
      intro left vs e hwritten hfits
      obtain ⟨n, hn, hbefore⟩ := ihs hwritten hfits
      rw [← List.append_assoc, List.foldl_append]
      exact ⟨_, .negated p hn, fits_negated hbefore p p⟩
  | chain _ _ ih ihs =>
      obtain ⟨n, hwritten, hfits⟩ := ih
      exact ihs (.first hwritten) hfits
  | noItems => exact ⟨[], .noItems, lists_nil⟩
  | comma p _ ih =>
      obtain ⟨ns, hwritten, hlists⟩ := ih
      exact ⟨ns, .comma p hwritten, hlists⟩
  | item _ _ apart ih ihs =>
      obtain ⟨n, hwritten, hfits⟩ := ih
      obtain ⟨ns, hmore, hlists⟩ := ihs
      have hemits : Emits sink n (Js.IsValue · _) := fun hnamed _ _ _ hrender =>
        (hfits hnamed hrender).1
      exact ⟨n :: ns, .item (.ofChain hwritten) hmore apart,
        hlists.cons (isIndex_of_written_chain hwritten) hemits⟩
  | noParameters => exact ⟨[], .noParameters, rfl⟩
  | parameter p named _ ih =>
      obtain ⟨ps, hwritten, rfl⟩ := ih
      exact ⟨_, .parameter p named hwritten, rfl⟩
  | declaration p q named _ ih =>
      obtain ⟨n, hwritten, hfits⟩ := ih
      exact ⟨_, .declaration p q named (.ofChain hwritten), rfl, emits_declaration hfits p⟩
  | assignment p q named _ ih =>
      obtain ⟨n, hwritten, hfits⟩ := ih
      exact ⟨_, .assignment p q named (.ofChain hwritten), rfl, emits_assignment hfits p⟩
  | branch p q r _ _ ihc ih =>
      obtain ⟨condition, hcondition, hfits⟩ := ihc
      obtain ⟨ns, hwritten, hlists⟩ := ih
      exact ⟨_, .branch p q r (.ofChain hcondition) hwritten, rfl,
        emits_branch hfits hlists.yields p⟩
  | branchElse p q r s _ _ _ ihc ih iho =>
      obtain ⟨condition, hcondition, hfits⟩ := ihc
      obtain ⟨ns, hwritten, hlists⟩ := ih
      obtain ⟨os, hothers, hlists'⟩ := iho
      exact ⟨_, .branchElse p q r s (.ofChain hcondition) hwritten hothers, rfl,
        emits_branchElse hfits hlists.yields hlists'.yields p⟩
  | loop p q r _ _ ihc ih =>
      obtain ⟨condition, hcondition, hfits⟩ := ihc
      obtain ⟨ns, hwritten, hlists⟩ := ih
      exact ⟨_, .loop p q r (.ofChain hcondition) hwritten, rfl,
        emits_loop hfits hlists.yields p⟩
  | definition p q r named _ _ ihp ih =>
      obtain ⟨ps, hlisted, rfl⟩ := ihp
      obtain ⟨ns, hwritten, hlists⟩ := ih
      exact ⟨_, .definition p q r named hlisted hwritten, rfl,
        emits_definition hlists.yields p⟩
  | print p _ ih =>
      obtain ⟨n, hwritten, hfits⟩ := ih
      exact ⟨_, .print p (.ofChain hwritten), rfl, emits_print hfits p⟩
  | marked begins _ ih =>
      obtain ⟨n, hwritten, hfits⟩ := ih
      exact ⟨n, .marked begins hwritten, isIndex_of_written_operand hwritten,
        emits_evaluate hfits⟩
  | plain begins _ ih =>
      obtain ⟨n, hwritten, hfits⟩ := ih
      exact ⟨n, .plain begins (.ofChain hwritten), isIndex_of_written_chain hwritten,
        emits_evaluate hfits⟩
  | noStatements => exact ⟨[], .noStatements, lists_nil⟩
  | statement _ _ apart ih ihs =>
      obtain ⟨n, hwritten, hindex, hemits⟩ := ih
      obtain ⟨ns, hmore, hlists⟩ := ihs
      exact ⟨n :: ns, .statement hwritten hmore apart, hlists.cons hindex hemits⟩

/-- A script is read as any meaning of its source. -/
theorem read_script_of_means {source script : String} {p : Program} {ss : List Js.Statement}
    (hsource : Program.ofSource source = .ok p) (hscript : p.script sink = .ok script)
    (hnamed : ∀ n ∈ p.nodes, IsNamed n)
    (h : Means sink (.block ss) (tokenize source).items) : Js.read script = some ss := by
  obtain ⟨ns, hwritten, hlists⟩ := agrees_of_means h
  obtain ⟨-, hposition⟩ := Program.ofSource_eq_ok_iff.mp hsource
  have hread : Program.ofSource source = .ok ⟨ns, p.position⟩ :=
    Program.ofSource_eq_ok_iff.mpr ⟨hwritten, hposition⟩
  have hstatements : p.statements = ns := by
    rw [hsource] at hread
    exact congrArg Program.statements (Except.ok.inj hread)
  subst hstatements
  rw [Program.script] at hscript
  split at hscript
  · next fragments t hrender =>
    cases hscript
    exact Js.read_intercalate (hlists.yields hnamed hrender)
  · cases hscript

/-- **Left to right.** The script of a text without subscripts and without
asterisks in its names is read by the rules of JavaScript, and as the one
left-to-right meaning of the tokens of the text. -/
theorem read_compile {source script : String} {p : Program}
    (hsource : Program.ofSource source = .ok p) (hscript : compile sink source = .ok script)
    (hindex : ∀ n ∈ p.nodes, n.isIndex = false)
    (hstar : ∀ n ∈ p.nodes, ∀ x ∈ n.mentions, '*' ∉ x.toList) :
    ∃ ss, Js.read script = some ss ∧
      ∀ ss', Means sink (.block ss') (tokenize source).items ↔ ss' = ss := by
  have hnamed : ∀ n ∈ p.nodes, IsNamed n := fun n hn x hx =>
    Js.isName_of_isSymbol (Program.isSymbol_of_mentions hsource hn x hx) (hstar n hn x hx)
  have hrendered : p.script sink = .ok script := by
    simp only [compile, hsource] at hscript
    split at hscript
    · cases hscript
    · next heq =>
      cases hscript
      exact heq
  have hwritten := (Program.ofSource_eq_ok_iff.mp hsource).1
  obtain ⟨ss, hss⟩ : ∃ ss, Means sink (.block ss) (tokenize source).items :=
    hasMeaning_of_written hwritten hindex
  have hread := read_script_of_means hsource hrendered hnamed hss
  refine ⟨ss, hread, fun ss' => ⟨fun hss' => ?_, ?_⟩⟩
  · have hread' := read_script_of_means hsource hrendered hnamed hss'
    rw [hread] at hread'
    exact (Option.some.inj hread').symm
  · rintro rfl
    exact hss

/-- Addition comes before multiplication if it is written before it, and a `🚫` at
the end negates all of it. -/
theorem read_compile_chain :
    compile .plain "🍉 ➕ 🍇 ✖️ 🍋 🚫" = .ok "!((🍉+🍇)*🍋)" ∧
      Js.read "!((🍉+🍇)*🍋)" = some [.evaluate (.negation
        (.operation .multiply (.operation .add (.name "🍉") (.name "🍇")) (.name "🍋")))] := by
  have htokens : tokenize "🍉 ➕ 🍇 ✖️ 🍋 🚫" =
      ⟨[⟨.symbol "🍉", ⟨1, 1⟩⟩, ⟨.operator .add, ⟨1, 3⟩⟩, ⟨.symbol "🍇", ⟨1, 5⟩⟩,
        ⟨.operator .multiply, ⟨1, 7⟩⟩, ⟨.symbol "🍋", ⟨1, 10⟩⟩, ⟨.operator .not, ⟨1, 12⟩⟩],
        ⟨1, 13⟩⟩ := by
    decide +kernel
  let sum : Node := .expression ⟨.variable "🍉" ⟨1, 1⟩, some .add,
    some (.variable "🍇" ⟨1, 5⟩), false, ⟨1, 3⟩⟩ ⟨1, 3⟩
  let product : Node := .expression ⟨sum, some .multiply, some (.variable "🍋" ⟨1, 10⟩), false,
    ⟨1, 7⟩⟩ ⟨1, 7⟩
  let program : Program := ⟨[.expression ⟨product, some .not, none, false, ⟨1, 12⟩⟩ ⟨1, 12⟩],
    ⟨1, 1⟩⟩
  have hsource : Program.ofSource "🍉 ➕ 🍇 ✖️ 🍋 🚫" = .ok program := by
    rw [Program.ofSource, htokens]
    rfl
  have hscript : compile .plain "🍉 ➕ 🍇 ✖️ 🍋 🚫" = .ok "!((🍉+🍇)*🍋)" := by
    rw [compile, hsource]
    decide +kernel
  obtain ⟨ss, hread, hmeans⟩ := read_compile hsource hscript (by decide) (by decide)
  have hstart : Means .plain (.steps false []) [] := .noSteps
  have hadded := hstart.join ⟨1, 3⟩ (.reference (writesName_symbol "🍇" ⟨1, 5⟩))
    (by decide : Operator.add = .not → _)
  have hmultiplied := hadded.join ⟨1, 7⟩ (.reference (writesName_symbol "🍋" ⟨1, 10⟩))
    (by decide : Operator.multiply = .not → _)
  have hnegated := hmultiplied.negate ⟨1, 12⟩
  have hchain := Means.chain (.reference (writesName_symbol "🍉" ⟨1, 1⟩)) hnegated
  have hblock := Means.statement (.plain (by decide) hchain) .noStatements (by decide)
  rw [htokens] at hmeans
  have hss := (hmeans _).mp hblock
  rw [← hss] at hread
  exact ⟨hscript, hread⟩

end LeftToRight

end Pictoscript
