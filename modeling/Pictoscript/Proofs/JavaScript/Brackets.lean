import Pictoscript.Proofs.JavaScript.Punctuation
import Pictoscript.Proofs.Lexing.Positions

/-! # Brackets and literals of a script

A script is put together from texts of which some open brackets and others close
them, with names and quoted texts in between. Here a script is scanned from left to
right by a machine that knows nothing but quotes, backslashes and brackets. It comes
through the whole script, closes each bracket where it is due, and has found, in the
order of the source text, the literals of the quoted texts and no others.
-/

namespace Pictoscript

/-! ## Quoted texts -/

def Located.texts : Located Token → List (Located String)
  | ⟨.text value, p⟩ => [⟨value, p⟩]
  | _ => []

def Node.texts : Node → List (Located String)
  | .text value p => [⟨value, p⟩]
  | _ => []

/-- The quoted texts of a program, in the order of its tree. -/
def Program.texts (p : Program) : List (Located String) := p.nodes.flatMap Node.texts

/-- Barriers change no texts. -/
theorem texts_group (n : Node) :
    (Expression.group n).nodes.flatMap Node.texts = n.nodes.flatMap Node.texts := by
  cases n with
  | expression content p =>
      rw [Expression.group]
      split
      · rfl
      · rw [nodes_with_grouped]
        rfl
  | _ => rfl

theorem texts_ofNode (n : Node) :
    (Expression.ofNode n).nodes.flatMap Node.texts = n.nodes.flatMap Node.texts := by
  cases n <;> rfl

namespace Grammar

def Phrase.nodes : Phrase → List Node
  | .operand _ n | .chain _ n | .expression _ n | .statement n => n.nodes
  | .items _ ns | .block ns => Node.among ns
  | .parameters _ => []

/-- Symbols and digits quote no texts. -/
theorem texts_of_map {α : Type} {f : α → Token} {xs : List α} {ts : List (Located Token)}
    (hmap : ts.map Located.value = xs.map f)
    (hf : ∀ x p, (⟨f x, p⟩ : Located Token).texts = []) : ts.flatMap Located.texts = [] := by
  rw [List.flatMap_eq_nil_iff]
  rintro ⟨value, p⟩ ht
  have hvalue : value ∈ xs.map f := hmap ▸ List.mem_map_of_mem ht
  obtain ⟨x, -, rfl⟩ := List.mem_map.mp hvalue
  exact hf x p

theorem WritesName.texts {name : Name} {ts : List (Located Token)} (h : WritesName name ts) :
    ts.flatMap Located.texts = [] := by
  obtain ⟨⟨units, -, hmap, -⟩, -⟩ := h
  exact texts_of_map hmap fun _ _ => rfl

theorem WritesNumber.texts {value : Nat} {p : Position} {ts : List (Located Token)}
    (h : WritesNumber value p ts) : ts.flatMap Located.texts = [] := by
  obtain ⟨⟨values, -, hmap, -⟩, -⟩ := h
  exact texts_of_map hmap fun _ _ => rfl

/-- The texts that the tokens of a phrase quote are those of its tree, in one order. -/
theorem texts_of_written {φ : Phrase} {ts : List (Located Token)} (h : Written φ ts) :
    ts.flatMap Located.texts = φ.nodes.flatMap Node.texts := by
  induction h with
  | number written _ => exact written.texts
  | text value p => rfl
  | boolean value p => rfl
  | reference written => exact written.texts
  | array p q _ ih =>
      simpa [Phrase.nodes, Node.nodes, Node.descendants, Node.texts, Located.texts] using ih
  | namedCall q r named _ ih =>
      simpa [Phrase.nodes, Node.nodes, Node.descendants, Node.texts, Located.texts,
        named.texts] using ih
  | markedCall p q r named _ ih =>
      simpa [Phrase.nodes, Node.nodes, Node.descendants, Node.texts, Located.texts,
        named.texts] using ih
  | group p q _ ih =>
      simpa [Phrase.nodes, Node.nodes, Node.descendants, Node.texts, Located.texts,
        texts_group] using ih
  | first _ ih => exact ih
  | joined p _ _ _ ihl ihr =>
      simp [Phrase.nodes, Node.nodes, Node.descendants, Expression.nodes, Node.texts,
        Located.texts, ihl, ihr]
  | negated p _ ih =>
      simpa [Phrase.nodes, Node.nodes, Node.descendants, Expression.nodes, Node.texts,
        Located.texts] using ih
  | index p written _ =>
      simpa [Phrase.nodes, Node.nodes, Node.descendants, Node.texts, Located.texts] using
        written.texts
  | ofChain _ ih => exact ih
  | noItems => rfl
  | comma p _ ih => exact ih
  | item _ _ _ ih ihs =>
      rw [List.flatMap_append, ih, ihs, ← List.flatMap_append]
      rfl
  | noParameters => rfl
  | parameter p named _ ih =>
      rw [List.flatMap_cons, List.flatMap_append, named.texts, ih]
      rfl
  | declaration p q named _ ih =>
      simpa [Phrase.nodes, Node.nodes, Node.descendants, Node.texts, Located.texts,
        named.texts] using ih
  | assignment p q named _ ih =>
      simpa [Phrase.nodes, Node.nodes, Node.descendants, Node.texts, Located.texts,
        named.texts] using ih
  | branch p q r _ _ ihc ih =>
      simp [Phrase.nodes, Node.nodes, Node.descendants, Node.texts, Located.texts, texts_ofNode,
        ihc, ih]
  | branchElse p q r s _ _ _ ihc ih iho =>
      simp [Phrase.nodes, Node.nodes, Node.descendants, Node.texts, Located.texts, texts_ofNode,
        ihc, ih, iho]
  | loop p q r _ _ ihc ih =>
      simp [Phrase.nodes, Node.nodes, Node.descendants, Node.texts, Located.texts, texts_ofNode,
        ihc, ih]
  | definition p q r named _ _ ihp ih =>
      simp [Phrase.nodes, Node.nodes, Node.descendants, Node.texts, Located.texts, named.texts,
        ihp, ih]
  | print p _ ih =>
      simpa [Phrase.nodes, Node.nodes, Node.descendants, Node.texts, Located.texts] using ih
  | marked _ _ ih => exact ih
  | plain _ _ ih => exact ih
  | noStatements => rfl
  | statement _ _ _ ih ihs =>
      rw [List.flatMap_append, ih, ihs, ← List.flatMap_append]
      rfl

end Grammar

namespace Brackets

/-! ## The scan -/

/-- What a scan is in the middle of, with the part of the literal that it has seen. -/
inductive Mode where
  | code
  | literal (seen : List Char)
  /-- Behind a backslash in a literal. -/
  | escaped (seen : List Char)
deriving DecidableEq

structure State where
  mode : Mode
  /-- The literals that were found, as they are written. -/
  literals : List String
  /-- The brackets that have to be closed, the innermost first. -/
  due : List Char
deriving DecidableEq

def closing? : Char → Option Char
  | '(' => some ')'
  | '[' => some ']'
  | '\x7b' => some '\x7d'
  | _ => none

def isClosing (c : Char) : Bool := c == ')' || c == ']' || c == '\x7d'

/-- A bracket outside of literals opens, or closes the one that is due. -/
def bracket (due : List Char) (c : Char) : Option (List Char) :=
  match closing? c with
  | some d => some (d :: due)
  | none =>
    if isClosing c then
      match due with
      | d :: due => if c = d then some due else none
      | [] => none
    else some due

/-- One character. Only a bracket that is not due stops the scan. -/
def step : State → Char → Option State
  | ⟨.code, literals, due⟩, c =>
    if c = '"' then some ⟨.literal [c], literals, due⟩
    else (bracket due c).map (⟨.code, literals, ·⟩)
  | ⟨.literal seen, literals, due⟩, c =>
    if c = '"' then some ⟨.code, literals ++ [String.ofList (seen ++ [c])], due⟩
    else if c = '\\' then some ⟨.escaped (seen ++ [c]), literals, due⟩
    else some ⟨.literal (seen ++ [c]), literals, due⟩
  | ⟨.escaped seen, literals, due⟩, c => some ⟨.literal (seen ++ [c]), literals, due⟩

def run (s : State) (cs : List Char) : Option State := cs.foldlM step s

def scan (script : String) : Option State := run ⟨.code, [], []⟩ script.toList

example : scan "f(\")\")[0]" = some ⟨.code, ["\")\""], []⟩ := by decide
example : scan "f([)]" = none := by decide

theorem run_append (s : State) (cs ds : List Char) :
    run s (cs ++ ds) = (run s cs).bind fun t => run t ds := List.foldlM_append

/-! ## Texts that the scan passes -/

/-- Scanning the text finds the literals and leaves the brackets that are due. -/
def Passes (text : String) (found : List String) : Prop :=
  ∀ literals due, run ⟨.code, literals, due⟩ text.toList = some ⟨.code, literals ++ found, due⟩

variable {a b text : String} {found more : List String}

theorem passes_empty : Passes "" [] := by
  intro literals due
  rw [List.append_nil]
  rfl

theorem Passes.append (ha : Passes a found) (hb : Passes b more) :
    Passes (a ++ b) (found ++ more) := by
  intro literals due
  rw [String.toList_append, run_append, ha, Option.bind_some, hb, List.append_assoc]

/-- A text in which the scan finds nothing, and the text behind it. -/
theorem Passes.behind (h : Passes text found) {front : String} (hfront : Passes front []) :
    Passes (front ++ text) found := hfront.append h

theorem Passes.before (h : Passes text found) {back : String} (hback : Passes back []) :
    Passes (text ++ back) found := by
  have happend := h.append hback
  rwa [List.append_nil] at happend

/-- The characters that the scan does not just pass over. -/
def special : List Char := ['"', '(', ')', '[', ']', '\x7b', '\x7d']

theorem step_of_not_special {c : Char} (h : c ∉ special) (literals : List String)
    (due : List Char) : step ⟨.code, literals, due⟩ c = some ⟨.code, literals, due⟩ := by
  simp only [special, List.mem_cons, List.not_mem_nil, or_false, not_or] at h
  obtain ⟨hquote, hround, hround', hsquare, hsquare', hbrace, hbrace'⟩ := h
  have hopening : closing? c = none := by
    unfold closing?
    split <;> simp_all
  have hclosing : isClosing c = false := by simp [isClosing, *]
  have hkept : bracket due c = some due := by
    unfold bracket
    rw [hopening]
    simp [hclosing]
  rw [step, if_neg hquote, hkept]
  rfl

theorem passes_of_not_special (h : ∀ c ∈ text.toList, c ∉ special) : Passes text [] := by
  intro literals due
  rw [List.append_nil]
  generalize text.toList = cs at h
  induction cs with
  | nil => rfl
  | cons c cs ih =>
      obtain ⟨hc, hcs⟩ := List.forall_mem_cons.mp h
      rw [run, List.foldlM_cons, step_of_not_special hc]
      exact ih hcs

/-- For fixed texts the condition is evaluated. -/
theorem passes_fixed (h : text.toList.all (fun c => !special.contains c) = true) :
    Passes text [] := by
  apply passes_of_not_special
  intro c hc
  simpa using List.all_eq_true.mp h c hc

/-- A text between an opening bracket and the bracket that closes it. -/
theorem Passes.enclosed {opening closing : String} {c d : Char} (hopening : opening.toList = [c])
    (hclosing : closing.toList = [d]) (hpair : closing? c = some d) (h : Passes text found) :
    Passes (opening ++ text ++ closing) found := by
  intro literals due
  have hopen : run ⟨.code, literals, due⟩ [c] = some ⟨.code, literals, d :: due⟩ := by
    unfold closing? at hpair
    split at hpair <;> cases hpair <;> rfl
  have hclose : run ⟨.code, literals ++ found, d :: due⟩ [d] =
      some ⟨.code, literals ++ found, due⟩ := by
    unfold closing? at hpair
    split at hpair <;> cases hpair <;> rfl
  rw [String.toList_append, String.toList_append, hopening, hclosing, run_append, run_append,
    hopen, Option.bind_some, h, Option.bind_some, hclose]

/-! ## Literals -/

theorem run_escape (seen : List Char) (literals : List String) (due : List Char) (c : Char) :
    run ⟨.literal seen, literals, due⟩ (Script.escape c) =
      some ⟨.literal (seen ++ Script.escape c), literals, due⟩ := by
  unfold Script.escape
  split
  · simp [run, step]
  · simp [run, step]
  · simp [run, step]
  · simp [run, step]
  · simp [run, step]
  · next hquote hbackslash _ _ _ =>
    rw [run, List.foldlM_cons, step, if_neg hquote, if_neg hbackslash]
    rfl

theorem run_escapes (seen : List Char) (literals : List String) (due cs : List Char) :
    run ⟨.literal seen, literals, due⟩ (cs.flatMap Script.escape) =
      some ⟨.literal (seen ++ cs.flatMap Script.escape), literals, due⟩ := by
  induction cs generalizing seen with
  | nil =>
      rw [List.flatMap_nil, List.append_nil]
      rfl
  | cons c cs ih =>
      rw [List.flatMap_cons, run_append, run_escape, Option.bind_some, ih, List.append_assoc]

/-- A literal is found as it is written. -/
theorem passes_quoted (value : String) : Passes (Script.quoted value) [Script.quoted value] := by
  intro literals due
  have hchars : (Script.quoted value).toList =
      ['"'] ++ (value.toList.flatMap Script.escape ++ ['"']) := by
    simp [Script.quoted]
  have hopen : run ⟨.code, literals, due⟩ ['"'] = some ⟨.literal ['"'], literals, due⟩ := rfl
  have hclose : ∀ seen, run ⟨.literal seen, literals, due⟩ ['"'] =
      some ⟨.code, literals ++ [String.ofList (seen ++ ['"'])], due⟩ := fun _ => rfl
  rw [hchars, run_append, hopen, Option.bind_some, run_append, run_escapes, Option.bind_some,
    hclose, List.append_assoc, ← hchars, String.ofList_toList]

/-! ## Texts put together -/

theorem Passes.parenthesized (h : Passes text found) :
    Passes (Script.parenthesized text) found :=
  h.enclosed (c := '(') (d := ')') (by decide) (by decide) rfl

theorem Passes.braced (h : Passes text found) : Passes (Script.braced text) found :=
  h.enclosed (c := '\x7b') (d := '\x7d') (by decide) (by decide) rfl

theorem Passes.bracketed (h : Passes text found) : Passes ("[" ++ text ++ "]") found :=
  h.enclosed (c := '[') (d := ']') (by decide) (by decide) rfl

theorem Passes.enclose (h : Passes text found) (grouped : Bool) :
    Passes (Script.enclose grouped text) found := by
  cases grouped with
  | false => exact h
  | true => exact h.parenthesized

theorem Passes.asOperand (h : Passes text found) (n : Node) :
    Passes (Script.asOperand n text) found := by
  rw [Script.asOperand]
  split
  · exact h.parenthesized
  · exact h

theorem passes_number (value : Nat) : Passes (toString value) [] := by
  apply passes_of_not_special
  intro c hc hspecial
  have hdigit := Punctuation.isDigit_of_number value c hc
  have hall : special.all (fun c => !c.isDigit) = true := by decide
  simpa [hdigit] using List.all_eq_true.mp hall c hspecial

theorem Passes.subscript (h : Passes text found) (offset : Nat) :
    Passes (text ++ s!"[{offset}]") found := by
  have hoffset : Passes ("[" ++ toString offset ++ "]") [] := (passes_number offset).bracketed
  exact h.before hoffset

/-- The scan passes the fragments, which come last first, one after the other. -/
inductive PassesAll : List Script.Fragment → List String → Prop where
  | nil : PassesAll [] []
  | cons {f : Script.Fragment} {done : List Script.Fragment} {found more : List String}
      (before : PassesAll done found) (last : Passes f.text more) :
      PassesAll (f :: done) (found ++ more)

theorem PassesAll.intercalate {fragments : List Script.Fragment} (h : PassesAll fragments found)
    {separator : String} (hseparator : Passes separator []) :
    Passes (separator.intercalate (Script.texts fragments)) found := by
  induction h with
  | nil => exact passes_empty
  | @cons f done found more before last ih =>
      have htexts : Script.texts (f :: done) = Script.texts done ++ [f.text] := by
        simp [Script.texts]
      rw [htexts]
      cases before with
      | nil => simpa [Script.texts] using last
      | cons before' last' =>
          rw [String.intercalate_append_of_ne_nil (by simp [Script.texts]) (by simp),
            String.intercalate_singleton]
          exact (ih.before hseparator).append last

theorem PassesAll.enumeration {fragments : List Script.Fragment} (h : PassesAll fragments found) :
    Passes (Script.enumeration fragments) found :=
  h.intercalate (passes_fixed (by decide))

theorem PassesAll.sequence {fragments : List Script.Fragment} (h : PassesAll fragments found) :
    Passes (Script.sequence fragments) found :=
  h.intercalate (passes_fixed (by decide))

/-- A keyword, a condition and a block. -/
theorem passes_guarded {keyword : String} {fragments : List Script.Fragment}
    (hkeyword : Passes keyword []) (hcondition : Passes text found)
    (hblock : PassesAll fragments more) :
    Passes (keyword ++ Script.parenthesized text ++ Script.braced (Script.sequence fragments))
      (found ++ more) :=
  (hcondition.parenthesized.behind hkeyword).append hblock.sequence.braced

theorem passes_enumerated {texts : List String} (h : ∀ t ∈ texts, Passes t []) :
    Passes (",".intercalate texts) [] := by
  have hcomma : Passes "," [] := passes_fixed (by decide)
  induction texts with
  | nil => exact passes_empty
  | cons first texts ih =>
      obtain ⟨hfirst, htexts⟩ := List.forall_mem_cons.mp h
      cases texts with
      | nil => simpa using hfirst
      | cons second texts =>
          rw [String.intercalate_cons_cons]
          exact (hfirst.append hcomma).append (ih htexts)

theorem passes_operator (op : Operator) : Passes op.script [] := by
  apply passes_fixed
  cases op <;> decide

/-- The bracket that a print closes is opened by its callee. -/
theorem passes_print (sink : Sink) (h : Passes text found) :
    Passes (sink.callee ++ text ++ ")") found := by
  obtain ⟨front, hcallee, hfront⟩ : ∃ front, sink.callee = front ++ "(" ∧ Passes front [] := by
    cases sink with
    | plain => exact ⟨"console.log", by decide, passes_fixed (by decide)⟩
    | rich => exact ⟨"window.alert", by decide, passes_fixed (by decide)⟩
  have hsplit : sink.callee ++ text ++ ")" = front ++ Script.parenthesized text := by
    rw [hcallee, Script.parenthesized]
    simp only [String.append_assoc]
  rw [hsplit]
  exact h.parenthesized.behind hfront

/-! ## Texts of nodes -/

def renderings (texts : List (Located String)) : List String :=
  texts.map fun t => Script.quoted t.value

def literalsOf (ns : List Node) : List String := renderings (ns.flatMap Node.texts)

theorem literalsOf_append (ms ns : List Node) :
    literalsOf (ms ++ ns) = literalsOf ms ++ literalsOf ns := by
  simp [literalsOf, renderings]

/-- All nodes but quoted texts have the literals of the nodes below them. -/
theorem literalsOf_cons {n : Node} (h : n.texts = []) (ns : List Node) :
    literalsOf (n :: ns) = literalsOf ns := by
  rw [literalsOf, List.flatMap_cons, h, List.nil_append, literalsOf]

variable {names : List String} {sink : Sink}

mutual
theorem passes_node (hnames : ∀ x ∈ names, Passes x []) : ∀ n : Node,
    (∀ m ∈ n.nodes, Punctuation.Suits names m) →
    ∀ {s text t}, Script.node sink n s = (.ok text, t) → Passes text (literalsOf n.nodes)
  | .number value p, hsuits, s, text, t, h => by
      obtain ⟨k, rfl⟩ := Int.eq_ofNat_of_zero_le (hsuits _ (List.mem_cons_self ..))
      cases h
      exact passes_number k
  | .text value _, _, s, text, t, h => by
      cases h
      exact passes_quoted value
  | .boolean value _, _, s, text, t, h => by
      cases h
      cases value with
      | false =>
          show Passes "false" []
          exact passes_fixed (by decide)
      | true =>
          show Passes "true" []
          exact passes_fixed (by decide)
  | .variable name p, hsuits, s, text, t, h => by
      cases h
      exact hnames name (hsuits _ (List.mem_cons_self ..) name (by simp [Node.mentions]))
  | .array elements _, hsuits, s, text, t, h => by
      obtain ⟨fragments, hmembers, rfl⟩ := Rendering.map_eq_ok_iff.mp h
      rw [Node.nodes, List.forall_mem_cons] at hsuits
      rw [Node.nodes, literalsOf_cons rfl]
      exact (passes_members hnames elements hsuits.2 .nil hmembers).enumeration.bracketed
  | .expression content _, hsuits, s, text, t, h => by
      rw [Node.nodes, List.forall_mem_cons] at hsuits
      rw [Node.nodes, literalsOf_cons rfl]
      exact passes_expression hnames content hsuits.2 h
  | .declaration name value p, hsuits, s, text, t, h => by
      obtain ⟨inner, u, hvalue, hrest⟩ := Rendering.bind_eq_ok_iff.mp h
      obtain ⟨-, u', -, hrest⟩ := Rendering.bind_eq_ok_iff.mp hrest
      cases hrest
      rw [Node.nodes, List.forall_mem_cons] at hsuits
      rw [Node.nodes, literalsOf_cons rfl]
      have hname : Passes name.text [] := hnames _ (hsuits.1 _ (by simp [Node.mentions]))
      have hlet : Passes "let " [] := passes_fixed (by decide)
      have hequals : Passes "=" [] := passes_fixed (by decide)
      exact (passes_node hnames value hsuits.2 hvalue).behind ((hlet.append hname).append hequals)
  | .assignment target value p, hsuits, s, text, t, h => by
      obtain ⟨inner, hvalue, rfl⟩ := Rendering.map_eq_ok_iff.mp h
      rw [Node.nodes, List.forall_mem_cons] at hsuits
      rw [Node.nodes, literalsOf_cons rfl]
      have hname : Passes target.text [] := hnames _ (hsuits.1 _ (by simp [Node.mentions]))
      have hequals : Passes "=" [] := passes_fixed (by decide)
      exact (passes_node hnames value hsuits.2 hvalue).behind (hname.append hequals)
  | .branch condition consequent none _, hsuits, s, text, t, h => by
      obtain ⟨test, u, htest, hrest⟩ := Rendering.bind_eq_ok_iff.mp h
      obtain ⟨fragments, hmembers, rfl⟩ := Rendering.map_eq_ok_iff.mp hrest
      obtain ⟨inner, hmembers⟩ := Rendering.inBlock_eq_ok hmembers
      rw [Node.nodes, List.forall_mem_cons, Node.descendants, List.forall_mem_append] at hsuits
      rw [Node.nodes, literalsOf_cons rfl, Node.descendants, literalsOf_append]
      have hif : Passes "if" [] := passes_fixed (by decide)
      exact passes_guarded hif (passes_expression hnames condition hsuits.2.1 htest)
        (passes_members hnames consequent hsuits.2.2 .nil hmembers)
  | .branch condition consequent (some alternative) _, hsuits, s, text, t, h => by
      obtain ⟨test, u, htest, hrest⟩ := Rendering.bind_eq_ok_iff.mp h
      obtain ⟨fragments, u', hmembers, hrest⟩ := Rendering.bind_eq_ok_iff.mp hrest
      obtain ⟨others, hothers, rfl⟩ := Rendering.map_eq_ok_iff.mp hrest
      obtain ⟨inner, hmembers⟩ := Rendering.inBlock_eq_ok hmembers
      obtain ⟨inner', hothers⟩ := Rendering.inBlock_eq_ok hothers
      rw [Node.nodes, List.forall_mem_cons, Node.descendants, List.forall_mem_append,
        List.forall_mem_append] at hsuits
      rw [Node.nodes, literalsOf_cons rfl, Node.descendants, literalsOf_append, literalsOf_append]
      have hif : Passes "if" [] := passes_fixed (by decide)
      have helse : Passes "else" [] := passes_fixed (by decide)
      have hpositive := passes_guarded hif (passes_expression hnames condition hsuits.2.1.1 htest)
        (passes_members hnames consequent hsuits.2.1.2 .nil hmembers)
      exact (hpositive.before helse).append
        (passes_members hnames alternative hsuits.2.2 .nil hothers).sequence.braced
  | .loop condition body _, hsuits, s, text, t, h => by
      obtain ⟨test, u, htest, hrest⟩ := Rendering.bind_eq_ok_iff.mp h
      obtain ⟨fragments, hmembers, rfl⟩ := Rendering.map_eq_ok_iff.mp hrest
      obtain ⟨inner, hmembers⟩ := Rendering.inBlock_eq_ok hmembers
      rw [Node.nodes, List.forall_mem_cons, Node.descendants, List.forall_mem_append] at hsuits
      rw [Node.nodes, literalsOf_cons rfl, Node.descendants, literalsOf_append]
      have hwhile : Passes "while" [] := passes_fixed (by decide)
      exact passes_guarded hwhile (passes_expression hnames condition hsuits.2.1 htest)
        (passes_members hnames body hsuits.2.2 .nil hmembers)
  | .definition name parameters body p, hsuits, s, text, t, h => by
      obtain ⟨-, u, -, hrest⟩ := Rendering.bind_eq_ok_iff.mp h
      obtain ⟨-, u', -, hrest⟩ := Rendering.bind_eq_ok_iff.mp hrest
      obtain ⟨fragments, hblock, rfl⟩ := Rendering.map_eq_ok_iff.mp hrest
      obtain ⟨inner, hblock⟩ := Rendering.inBlock_eq_ok hblock
      obtain ⟨-, u'', -, hmembers⟩ := Rendering.bind_eq_ok_iff.mp hblock
      rw [Node.nodes, List.forall_mem_cons] at hsuits
      rw [Node.nodes, literalsOf_cons rfl]
      obtain ⟨hmentions, hbelow⟩ := hsuits
      have hname : Passes name.text [] := hnames _ (hmentions _ (by simp [Node.mentions]))
      have hparameters : Passes (",".intercalate (parameters.map Name.text)) [] := by
        apply passes_enumerated
        intro x hx
        exact hnames x (hmentions x (List.mem_cons_of_mem _ hx))
      have hfunction : Passes "function " [] := passes_fixed (by decide)
      exact (passes_members hnames body hbelow .nil hmembers).sequence.braced.behind
        ((hfunction.append hname).append hparameters.parenthesized)
  | .call name arguments p, hsuits, s, text, t, h => by
      obtain ⟨-, u, -, hrest⟩ := Rendering.bind_eq_ok_iff.mp h
      obtain ⟨fragments, hmembers, rfl⟩ := Rendering.map_eq_ok_iff.mp hrest
      rw [Node.nodes, List.forall_mem_cons] at hsuits
      rw [Node.nodes, literalsOf_cons rfl]
      have hname : Passes name.text [] := hnames _ (hsuits.1 _ (by simp [Node.mentions]))
      have hall := passes_members hnames arguments hsuits.2 .nil hmembers
      exact hall.enumeration.parenthesized.behind hname
  | .index .., _, s, text, t, h => by cases h
  | .print value _, hsuits, s, text, t, h => by
      obtain ⟨inner, hvalue, rfl⟩ := Rendering.map_eq_ok_iff.mp h
      rw [Node.nodes, List.forall_mem_cons] at hsuits
      rw [Node.nodes, literalsOf_cons rfl]
      exact passes_print sink (passes_node hnames value hsuits.2 hvalue)
theorem passes_expression (hnames : ∀ x ∈ names, Passes x []) : ∀ e : Expression,
    (∀ m ∈ e.nodes, Punctuation.Suits names m) →
    ∀ {s text t}, Script.expression sink e s = (.ok text, t) → Passes text (literalsOf e.nodes)
  | ⟨left, none, none, grouped, _⟩, hsuits, s, text, t, h => by
      obtain ⟨inner, hleft, rfl⟩ := Rendering.map_eq_ok_iff.mp h
      exact (passes_node hnames left hsuits hleft).enclose grouped
  | ⟨_, none, some _, _, _⟩, _, s, text, t, h => by cases h
  | ⟨left, some op, none, grouped, _⟩, hsuits, s, text, t, h => by
      cases op with
      | not =>
          obtain ⟨inner, hleft, rfl⟩ := Rendering.map_eq_ok_iff.mp h
          have hnot : Passes "!" [] := passes_fixed (by decide)
          have hinner := (passes_node hnames left hsuits hleft).asOperand left
          exact (hinner.behind hnot).enclose grouped
      | _ => cases h
  | ⟨left, some op, some right, grouped, _⟩, hsuits, s, text, t, h => by
      by_cases hop : op = .not
      · subst hop
        cases h
      · rw [Script.expression_of_ne_not hop, Rendering.bind_eq_ok_iff] at h
        obtain ⟨first, u, hfirst, hrest⟩ := h
        obtain ⟨second, hsecond, rfl⟩ := Rendering.map_eq_ok_iff.mp hrest
        rw [Expression.nodes, List.forall_mem_append] at hsuits
        rw [Expression.nodes, literalsOf_append]
        have hleft := (passes_node hnames left hsuits.1 hfirst).asOperand left
        have hright := (passes_node hnames right hsuits.2 hsecond).asOperand right
        exact ((hleft.before (passes_operator op)).append hright).enclose grouped
/-- Each member adds a fragment with its literals, or a subscript without any. -/
theorem passes_members (hnames : ∀ x ∈ names, Passes x []) : ∀ ns : List Node,
    (∀ m ∈ Node.among ns, Punctuation.Suits names m) →
    ∀ {done found s fragments t}, PassesAll done found →
      Script.members sink done ns s = (.ok fragments, t) →
        PassesAll fragments (found ++ literalsOf (Node.among ns))
  | [], _, done, found, s, fragments, t, hdone, h => by
      cases h
      simpa [Node.among, literalsOf, renderings] using hdone
  | n :: ns, hsuits, done, found, s, fragments, t, hdone, h => by
      rw [Node.among, List.forall_mem_append] at hsuits
      rw [Node.among, literalsOf_append, ← List.append_assoc]
      cases hindex : n.isIndex with
      | true =>
          obtain ⟨k, p, rfl⟩ := Subscripts.isIndex_iff.mp hindex
          obtain ⟨last, before, rfl, -, hrest⟩ := Subscripts.members_index h
          cases hdone with
          | cons hbefore hlast =>
              have hsubscript := PassesAll.cons (f := ⟨last.text ++ s!"[{k}]", true⟩) hbefore
                (hlast.subscript k)
              have hnone : literalsOf (Node.index k p :: (Node.index k p).descendants) = [] := rfl
              rw [hnone, List.append_nil]
              exact passes_members hnames ns hsuits.2 hsubscript hrest
      | false =>
          rw [Script.members_cons hindex, Rendering.bind_eq_ok_iff] at h
          obtain ⟨text, u, htext, hrest⟩ := h
          have hpasses := passes_node hnames n hsuits.1 htext
          exact passes_members hnames ns hsuits.2
            (.cons (f := ⟨text, n.isValue⟩) hdone hpasses) hrest
end

/-! ## Scripts -/

section

variable {source script : String} {p : Program} (hsource : Program.ofSource source = .ok p)
include hsource

theorem passes_names : ∀ x ∈ p.mentions, Passes x [] := by
  have hall : special.all (fun c => Punctuation.reserved.contains c && c != '*') = true := by
    decide
  intro x hx
  apply passes_of_not_special
  intro c hc hspecial
  obtain ⟨hreserved, hne⟩ : c ∈ Punctuation.reserved ∧ c ≠ '*' := by
    simpa using List.all_eq_true.mp hall c hspecial
  exact Punctuation.not_mem_of_reserved hsource hreserved hne x hx hc

theorem passes_script (hscript : p.script sink = .ok script) :
    Passes script (renderings p.texts) := by
  rw [Program.script] at hscript
  split at hscript
  · next fragments t hmembers =>
    cases hscript
    exact (passes_members (passes_names hsource) p.statements
      (Punctuation.suits_of_nodes hsource) .nil hmembers).sequence
  · cases hscript

theorem texts_eq_of_ofSource : p.texts = (tokenize source).items.flatMap Located.texts :=
  (Grammar.texts_of_written (Program.ofSource_eq_ok_iff.mp hsource).1).symm

end

/-- A token quotes nothing but a text at its own position. -/
theorem position_of_mem_texts {t : Located Token} {v : Located String} (h : v ∈ t.texts) :
    v.position = t.position := by
  unfold Located.texts at h
  split at h
  · rw [List.mem_singleton.mp h]
  · cases h

theorem pairwise_texts (source : String) :
    ((tokenize source).items.flatMap Located.texts).Pairwise
      fun v w => v.position < w.position := by
  refine List.pairwise_flatMap.mpr ⟨?_, ?_⟩
  · intro t _
    unfold Located.texts
    split
    · exact List.pairwise_singleton _ _
    · exact .nil
  · refine (pairwise_tokenize _).imp ?_
    intro s t hlt v hv w hw
    rwa [position_of_mem_texts hv, position_of_mem_texts hw]

/-- **Scripts are bracketed well.** The scan of a script ends outside of literals and
with all brackets closed. The literals that it finds are those of the quoted texts of
the program, in the order in which they stand in the source. -/
theorem scan_compile {sink : Sink} {source script : String}
    (h : compile sink source = .ok script) :
    ∃ p, Program.ofSource source = .ok p ∧
      scan script = some ⟨.code, renderings p.texts, []⟩ ∧
      p.texts = (tokenize source).items.flatMap Located.texts ∧
      p.texts.Pairwise fun v w => v.position < w.position := by
  cases hsource : Program.ofSource source with
  | error e => simp [compile, hsource] at h
  | ok p =>
      have hpasses := passes_script hsource (Subscripts.script_of_compile hsource h)
      have htexts := texts_eq_of_ofSource hsource
      exact ⟨p, rfl, hpasses [] [], htexts, htexts ▸ pairwise_texts source⟩

/-- A text with brackets and a backslash in it, and one with a quote. -/
theorem scan_compile_quotes :
    compile .rich "📢 📦 📋 ([\\ 📋 🌚 📋 \" 📋 🎁" =
      .ok "window.alert([\"([\\\\\",\"\\\"\"])" ∧
    ∃ p, Program.ofSource "📢 📦 📋 ([\\ 📋 🌚 📋 \" 📋 🎁" = .ok p ∧
      scan "window.alert([\"([\\\\\",\"\\\"\"])" = some ⟨.code, renderings p.texts, []⟩ ∧
      p.texts = [⟨"([\\", ⟨1, 5⟩⟩, ⟨"\"", ⟨1, 15⟩⟩] := by
  have htokens : tokenize "📢 📦 📋 ([\\ 📋 🌚 📋 \" 📋 🎁" =
      ⟨[⟨.print, ⟨1, 1⟩⟩, ⟨.arrayStart, ⟨1, 3⟩⟩, ⟨.text "([\\", ⟨1, 5⟩⟩, ⟨.comma, ⟨1, 13⟩⟩,
        ⟨.text "\"", ⟨1, 15⟩⟩, ⟨.arrayEnd, ⟨1, 21⟩⟩], ⟨1, 22⟩⟩ := by
    decide +kernel
  have hsource : Program.ofSource "📢 📦 📋 ([\\ 📋 🌚 📋 \" 📋 🎁" =
      .ok ⟨[.print (.array [.text "([\\" ⟨1, 5⟩, .text "\"" ⟨1, 15⟩] ⟨1, 3⟩) ⟨1, 1⟩],
        ⟨1, 1⟩⟩ := by
    rw [Program.ofSource, htokens]
    rfl
  have hscript : compile .rich "📢 📦 📋 ([\\ 📋 🌚 📋 \" 📋 🎁" =
      .ok "window.alert([\"([\\\\\",\"\\\"\"])" := by
    rw [compile, hsource]
    decide +kernel
  obtain ⟨p, hp, hscan, htexts, -⟩ := scan_compile hscript
  refine ⟨hscript, p, hp, hscan, ?_⟩
  rw [htexts, htokens]
  rfl

end Brackets

end Pictoscript
