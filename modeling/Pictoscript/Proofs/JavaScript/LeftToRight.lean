import Pictoscript.Proofs.Grammar.Written
import Pictoscript.Proofs.JavaScript.Reader
import Pictoscript.Proofs.Nodes

/-! # What tokens mean from left to right

The meaning of a text, as the JavaScript tree of the same program, taken from its
tokens and not from the tree that the grammar makes of them. A chain is an
operand and the steps behind it, and its meaning is the left fold of the steps:
an operator joins all that stands before it in the chain with the one operand
behind it, whatever the operators are, and a `🚫` without right operand negates
all that stands before it. What stands between a pair of barriers is one operand
and leaves no other trace.

There are no subscripts here. Every text without subscripts that can be read has
a meaning.
-/

namespace Pictoscript

def Sink.function : Sink → String
  | .plain => "console.log"
  | .rich => "window.alert"

namespace LeftToRight

open Reading Grammar

/-- What may stand behind an operand in a chain. -/
inductive Step where
  | join (op : Operator) (right : Js.Expr)
  | negate

def Step.apply (e : Js.Expr) : Step → Js.Expr
  | .join op right => .operation op e right
  | .negate => .negation e

/-- A kind of phrase together with its meaning. The flag tells whether a group is
open around the phrase. -/
inductive Part where
  | operand (inGroup : Bool) (e : Js.Expr)
  | steps (inGroup : Bool) (steps : List Step)
  | chain (inGroup : Bool) (e : Js.Expr)
  | items (inGroup : Bool) (es : List Js.Expr)
  | parameters (names : List String)
  | statement (s : Js.Statement)
  | block (ss : List Js.Statement)

/-- The tokens have the meaning, when values are printed to the sink. -/
inductive Means (sink : Sink) : Part → List (Located Token) → Prop where
  | number {g : Bool} {value : Nat} {p : Position} {ts : List (Located Token)}
      (written : WritesNumber value p ts) (bounded : value ≤ numberLimit) :
      Means sink (.operand g (.number value)) ts
  | text {g : Bool} (value : String) (p : Position) :
      Means sink (.operand g (.text value)) [⟨.text value, p⟩]
  | boolean {g : Bool} (value : Bool) (p : Position) :
      Means sink (.operand g (.boolean value)) [⟨.boolean value, p⟩]
  | reference {g : Bool} {name : Name} {ts : List (Located Token)}
      (written : WritesName name ts) : Means sink (.operand g (.name name.text)) ts
  | array {g : Bool} {es : List Js.Expr} {ts : List (Located Token)} (p q : Position)
      (elements : Means sink (.items g es) ts) :
      Means sink (.operand g (.array es)) (⟨.arrayStart, p⟩ :: (ts ++ [⟨.arrayEnd, q⟩]))
  | namedCall {g : Bool} {name : Name} {es : List Js.Expr} {ns ts : List (Located Token)}
      (q r : Position) (named : WritesName name ns) (arguments : Means sink (.items g es) ts) :
      Means sink (.operand g (.call (.name name.text) es))
        (ns ++ ⟨.callStart, q⟩ :: (ts ++ [⟨.callEnd, r⟩]))
  | markedCall {g : Bool} {name : Name} {es : List Js.Expr} {ns ts : List (Located Token)}
      (p q r : Position) (named : WritesName name ns)
      (arguments : Means sink (.items g es) ts) :
      Means sink (.operand g (.call (.name name.text) es))
        (⟨.callStart, p⟩ :: (ns ++ ⟨.arrow, q⟩ :: (ts ++ [⟨.callEnd, r⟩])))
  /-- A group is one operand. -/
  | group {g : Bool} {e : Js.Expr} {ts : List (Located Token)} (p q : Position)
      (inner : Means sink (.chain true e) ts) :
      Means sink (.operand g e) (⟨.barrier, p⟩ :: (ts ++ [⟨.barrier, q⟩]))
  | noSteps {g : Bool} : Means sink (.steps g []) []
  /-- An operator with the operand behind it. A `🚫` may have one as well, but then
  there is no script. -/
  | join {g : Bool} {steps : List Step} {op : Operator} {e : Js.Expr}
      {ts us : List (Located Token)} (p : Position) (before : Means sink (.steps g steps) ts)
      (right : Means sink (.operand g e) us)
      (takesRight : op = .not → runsOn g (.operator .not) (nextToken us) = true) :
      Means sink (.steps g (steps ++ [.join op e])) (ts ++ ⟨.operator op, p⟩ :: us)
  | negate {g : Bool} {steps : List Step} {ts : List (Located Token)} (p : Position)
      (before : Means sink (.steps g steps) ts) :
      Means sink (.steps g (steps ++ [.negate])) (ts ++ [⟨.operator .not, p⟩])
  /-- A chain is worked off from left to right. -/
  | chain {g : Bool} {e : Js.Expr} {steps : List Step} {ts us : List (Located Token)}
      (first : Means sink (.operand g e) ts) (behind : Means sink (.steps g steps) us) :
      Means sink (.chain g (steps.foldl Step.apply e)) (ts ++ us)
  | noItems {g : Bool} : Means sink (.items g []) []
  | comma {g : Bool} {es : List Js.Expr} {ts : List (Located Token)} (p : Position)
      (more : Means sink (.items g es) ts) : Means sink (.items g es) (⟨.comma, p⟩ :: ts)
  | item {g : Bool} {e : Js.Expr} {es : List Js.Expr} {ts us : List (Located Token)}
      (first : Means sink (.chain g e) ts) (more : Means sink (.items g es) us)
      (apart : Apart g ts us) : Means sink (.items g (e :: es)) (ts ++ us)
  | noParameters : Means sink (.parameters []) []
  | parameter {name : Name} {names : List String} {ts us : List (Located Token)} (p : Position)
      (named : WritesName name ts) (more : Means sink (.parameters names) us) :
      Means sink (.parameters (name.text :: names)) (⟨.comma, p⟩ :: (ts ++ us))
  | declaration {name : Name} {e : Js.Expr} {ns ts : List (Located Token)} (p q : Position)
      (named : WritesName name ns) (value : Means sink (.chain false e) ts) :
      Means sink (.statement (.declare name.text e)) (⟨.declare, p⟩ :: (ns ++ ⟨.arrow, q⟩ :: ts))
  | assignment {name : Name} {e : Js.Expr} {ns ts : List (Located Token)} (p q : Position)
      (named : WritesName name ns) (value : Means sink (.chain false e) ts) :
      Means sink (.statement (.assign name.text e)) (⟨.assign, p⟩ :: (ns ++ ⟨.arrow, q⟩ :: ts))
  | branch {e : Js.Expr} {ss : List Js.Statement} {cs ts : List (Located Token)}
      (p q r : Position) (condition : Means sink (.chain false e) cs)
      (consequent : Means sink (.block ss) ts) :
      Means sink (.statement (.branch e ss none))
        (⟨.branch, p⟩ :: (cs ++ ⟨.arrow, q⟩ :: (ts ++ [⟨.stop, r⟩])))
  | branchElse {e : Js.Expr} {ss os : List Js.Statement} {cs ts us : List (Located Token)}
      (p q r s : Position) (condition : Means sink (.chain false e) cs)
      (consequent : Means sink (.block ss) ts) (alternative : Means sink (.block os) us) :
      Means sink (.statement (.branch e ss (some os)))
        (⟨.branch, p⟩ :: (cs ++ ⟨.arrow, q⟩ :: (ts ++ ⟨.otherwise, r⟩ :: (us ++ [⟨.stop, s⟩]))))
  | loop {e : Js.Expr} {ss : List Js.Statement} {cs ts : List (Located Token)}
      (p q r : Position) (condition : Means sink (.chain false e) cs)
      (body : Means sink (.block ss) ts) :
      Means sink (.statement (.loop e ss))
        (⟨.loop, p⟩ :: (cs ++ ⟨.arrow, q⟩ :: (ts ++ [⟨.stop, r⟩])))
  | definition {name : Name} {parameters : List String} {ss : List Js.Statement}
      {ns ps ts : List (Located Token)} (p q r : Position) (named : WritesName name ns)
      (listed : Means sink (.parameters parameters) ps) (body : Means sink (.block ss) ts) :
      Means sink (.statement (.function name.text parameters ss))
        (⟨.define, p⟩ :: (ns ++ (ps ++ ⟨.arrow, q⟩ :: (ts ++ [⟨.stop, r⟩]))))
  | print {e : Js.Expr} {ts : List (Located Token)} (p : Position)
      (value : Means sink (.chain false e) ts) :
      Means sink (.statement (.evaluate (.call (.name sink.function) [e])))
        (⟨.print, p⟩ :: ts)
  /-- A call that begins with `🫑` is a statement without operators behind it. -/
  | marked {e : Js.Expr} {ts : List (Located Token)} (begins : nextToken ts = .callStart)
      (value : Means sink (.operand false e) ts) : Means sink (.statement (.evaluate e)) ts
  | plain {e : Js.Expr} {ts : List (Located Token)} (begins : nextToken ts ≠ .callStart)
      (value : Means sink (.chain false e) ts) : Means sink (.statement (.evaluate e)) ts
  | noStatements : Means sink (.block []) []
  | statement {s : Js.Statement} {ss : List Js.Statement} {ts us : List (Located Token)}
      (first : Means sink (.statement s) ts) (more : Means sink (.block ss) us)
      (apart : Apart false ts us) : Means sink (.block (s :: ss)) (ts ++ us)

/-! ## Texts without subscripts have a meaning -/

def nodesOf : Phrase → List Node
  | .operand _ n | .chain _ n | .expression _ n | .statement n => n.nodes
  | .items _ ns | .block ns => Node.among ns
  | .parameters _ => []

/-- The tokens that write a phrase have some meaning of the same kind. -/
def HasMeaning (sink : Sink) (ts : List (Located Token)) : Phrase → Prop
  | .operand g _ => ∃ e, Means sink (.operand g e) ts
  | .chain g _ | .expression g _ => ∃ e, Means sink (.chain g e) ts
  | .items g _ => ∃ es, Means sink (.items g es) ts
  | .parameters names => Means sink (.parameters (names.map Name.text)) ts
  | .statement _ => ∃ s, Means sink (.statement s) ts
  | .block _ => ∃ ss, Means sink (.block ss) ts

variable {sink : Sink}

/-- A further step goes to the end of a chain. -/
theorem exists_chain_append {g : Bool} {e : Js.Expr} {ts us : List (Located Token)} {step : Step}
    (h : Means sink (.chain g e) ts)
    (hstep : ∀ {steps : List Step} {vs : List (Located Token)}, Means sink (.steps g steps) vs →
      Means sink (.steps g (steps ++ [step])) (vs ++ us)) :
    ∃ e, Means sink (.chain g e) (ts ++ us) := by
  cases h with
  | chain first behind =>
      rw [List.append_assoc]
      exact ⟨_, .chain first (hstep behind)⟩

/-- Tokens that write a phrase have a meaning, unless there are subscripts. -/
theorem hasMeaning_of_written {φ : Phrase} {ts : List (Located Token)} (h : Written φ ts)
    (hindex : ∀ n ∈ nodesOf φ, n.isIndex = false) : HasMeaning sink ts φ := by
  induction h with
  | number written bounded => exact ⟨_, .number written bounded⟩
  | text value p => exact ⟨_, .text value p⟩
  | boolean value p => exact ⟨_, .boolean value p⟩
  | reference written => exact ⟨_, .reference written⟩
  | array p q _ ih =>
      simp only [nodesOf, Node.nodes, Node.descendants, List.forall_mem_cons] at hindex
      obtain ⟨es, hes⟩ := ih hindex.2
      exact ⟨_, .array p q hes⟩
  | namedCall q r named _ ih =>
      simp only [nodesOf, Node.nodes, Node.descendants, List.forall_mem_cons] at hindex
      obtain ⟨es, hes⟩ := ih hindex.2
      exact ⟨_, .namedCall q r named hes⟩
  | markedCall p q r named _ ih =>
      simp only [nodesOf, Node.nodes, Node.descendants, List.forall_mem_cons] at hindex
      obtain ⟨es, hes⟩ := ih hindex.2
      exact ⟨_, .markedCall p q r named hes⟩
  | group p q _ ih =>
      obtain ⟨e, he⟩ := ih ((forall_nodes_group (by intros; rfl)).mp hindex)
      exact ⟨e, .group p q he⟩
  | first _ ih =>
      obtain ⟨e, he⟩ := ih hindex
      refine ⟨e, ?_⟩
      have hchain := Means.chain he (.noSteps (g := _))
      rwa [List.append_nil] at hchain
  | joined p _ _ takesRight ihl ihr =>
      simp only [nodesOf, Node.nodes, Node.descendants, Expression.nodes, List.forall_mem_cons,
        List.forall_mem_append] at hindex
      obtain ⟨e, he⟩ := ihl (List.forall_mem_cons.mpr hindex.2.1)
      obtain ⟨f, hf⟩ := ihr (List.forall_mem_cons.mpr hindex.2.2)
      exact exists_chain_append he fun hsteps => .join p hsteps hf takesRight
  | negated p _ ih =>
      simp only [nodesOf, Node.nodes, Node.descendants, Expression.nodes,
        List.forall_mem_cons] at hindex
      obtain ⟨e, he⟩ := ih (List.forall_mem_cons.mpr hindex.2)
      exact exists_chain_append he fun hsteps => .negate p hsteps
  | index p _ _ => cases hindex _ (List.mem_cons_self ..)
  | ofChain _ ih => exact ih hindex
  | noItems => exact ⟨_, .noItems⟩
  | comma p _ ih =>
      obtain ⟨es, hes⟩ := ih hindex
      exact ⟨es, .comma p hes⟩
  | item _ _ apart ih ihs =>
      obtain ⟨hfirst, hmore⟩ := List.forall_mem_append.mp hindex
      obtain ⟨e, he⟩ := ih hfirst
      obtain ⟨es, hes⟩ := ihs hmore
      exact ⟨_, .item he hes apart⟩
  | noParameters => exact .noParameters
  | parameter p named _ ih => exact .parameter p named (ih hindex)
  | declaration p q named _ ih =>
      obtain ⟨e, he⟩ := ih (List.forall_mem_cons.mp hindex).2
      exact ⟨_, .declaration p q named he⟩
  | assignment p q named _ ih =>
      obtain ⟨e, he⟩ := ih (List.forall_mem_cons.mp hindex).2
      exact ⟨_, .assignment p q named he⟩
  | branch p q r _ _ ihc ih =>
      simp only [nodesOf, Node.nodes, Node.descendants, List.forall_mem_cons,
        List.forall_mem_append] at hindex
      obtain ⟨e, he⟩ := ihc ((forall_nodes_ofNode (by intros; rfl)).mp hindex.2.1)
      obtain ⟨ss, hss⟩ := ih hindex.2.2
      exact ⟨_, .branch p q r he hss⟩
  | branchElse p q r s _ _ _ ihc ih iho =>
      simp only [nodesOf, Node.nodes, Node.descendants, List.forall_mem_cons,
        List.forall_mem_append] at hindex
      obtain ⟨e, he⟩ := ihc ((forall_nodes_ofNode (by intros; rfl)).mp hindex.2.1.1)
      obtain ⟨ss, hss⟩ := ih hindex.2.1.2
      obtain ⟨os, hos⟩ := iho hindex.2.2
      exact ⟨_, .branchElse p q r s he hss hos⟩
  | loop p q r _ _ ihc ih =>
      simp only [nodesOf, Node.nodes, Node.descendants, List.forall_mem_cons,
        List.forall_mem_append] at hindex
      obtain ⟨e, he⟩ := ihc ((forall_nodes_ofNode (by intros; rfl)).mp hindex.2.1)
      obtain ⟨ss, hss⟩ := ih hindex.2.2
      exact ⟨_, .loop p q r he hss⟩
  | definition p q r named _ _ ihp ih =>
      obtain ⟨ss, hss⟩ := ih (List.forall_mem_cons.mp hindex).2
      exact ⟨_, .definition p q r named (ihp (by simp [nodesOf])) hss⟩
  | print p _ ih =>
      obtain ⟨e, he⟩ := ih (List.forall_mem_cons.mp hindex).2
      exact ⟨_, .print p he⟩
  | marked begins _ ih =>
      obtain ⟨e, he⟩ := ih hindex
      exact ⟨_, .marked begins he⟩
  | plain begins _ ih =>
      obtain ⟨e, he⟩ := ih hindex
      exact ⟨_, .plain begins he⟩
  | noStatements => exact ⟨_, .noStatements⟩
  | statement _ _ apart ih ihs =>
      obtain ⟨hfirst, hmore⟩ := List.forall_mem_append.mp hindex
      obtain ⟨s, hs⟩ := ih hfirst
      obtain ⟨ss, hss⟩ := ihs hmore
      exact ⟨_, .statement hs hss apart⟩

end LeftToRight

end Pictoscript
