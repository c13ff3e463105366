import Pictoscript.Pictograph
import Pictoscript.Proofs.Outline.Indentation

/-! # Labels of an outline

What stands on a line of an outline, apart from its indentation: a keyword that says
what kind of node the line is about, and the details of that node. The keywords are
words of letters and differ from each other, and details begin with a blank, so a
label is told from others by its keyword. Its details can be read back as well,
provided that names are symbols and a quoted text has no newline.
-/

namespace Pictoscript

theorem Operator.label_inj {op op' : Operator} (h : op.label = op'.label) : op = op' := by
  cases op <;> cases op' <;> first | rfl | simp [Operator.label] at h

namespace Outline

inductive Label where
  | number (value : Int)
  | text (value : String)
  | boolean (value : Bool)
  | variable (name : String)
  | array
  | expression (operator : Option Operator) (grouped : Bool)
  | declaration (name : String)
  | assignment (target : String)
  | branch
  | consequent
  | alternative
  | loop
  | definition (name : String) (parameters : List String)
  | body
  | call (name : String)
  | index (offset : Nat)
  | print

namespace Label

def keyword : Label → String
  | .number _ => "NumberLiteral"
  | .text _ => "StringLiteral"
  | .boolean _ => "BooleanLiteral"
  | .variable _ => "Identifier"
  | .array => "ArrayLiteral"
  | .expression _ _ => "Expression"
  | .declaration _ => "VariableDeclaration"
  | .assignment _ => "Assignment"
  | .branch => "IfStatement"
  | .consequent => "Consequent"
  | .alternative => "Alternative"
  | .loop => "LoopStatement"
  | .definition _ _ => "FunctionDefinition"
  | .body => "Body"
  | .call _ => "FunctionCall"
  | .index _ => "IndexExpression"
  | .print => "IOOperation"

def details : Label → String
  | .number value => " " ++ toString value
  | .text value => " \"" ++ value ++ "\""
  | .boolean value => " " ++ toString value
  | .variable name | .declaration name | .assignment name | .call name => " " ++ name
  | .expression operator grouped =>
    (operator.elim "" fun op => " " ++ op.label) ++ if grouped then " (grouped)" else ""
  | .definition name parameters => " " ++ name ++ "(" ++ ", ".intercalate parameters ++ ")"
  | .index offset => " [" ++ toString offset ++ "]"
  | .print => " print"
  | .array | .branch | .consequent | .alternative | .loop | .body => ""

def content (l : Label) : String := l.keyword ++ l.details

/-- A label whose details can be read back. -/
def Legible : Label → Prop
  | .number value => 0 ≤ value
  | .text value => '\n' ∉ value.toList
  | .variable name | .declaration name | .assignment name | .call name =>
    Pictograph.isSymbol name.toList = true
  | .definition name parameters => ∀ x ∈ name :: parameters, Pictograph.isSymbol x.toList = true
  | _ => True

end Label

/-! ## Characters -/

theorem isAlpha_of_mem_keyword (l : Label) : ∀ c ∈ l.keyword.toList, c.isAlpha = true := by
  cases l <;> simp [Label.keyword]

theorem keyword_ne_nil (l : Label) : l.keyword.toList ≠ [] := by
  cases l <;> simp [Label.keyword]

theorem head?_details (l : Label) : ∀ c ∈ l.details.toList.head?, c = ' ' := by
  cases l with
  | expression operator grouped => cases operator <;> cases grouped <;> simp [Label.details]
  | _ => simp [Label.details]

/-- Only characters of emoji occur in a symbol. -/
theorem bne_of_isSymbol {x : String} (h : Pictograph.isSymbol x.toList = true) (c : Char)
    (hc : (Pictograph.isPictographic c || Pictograph.isComponent c ||
      Pictograph.isKeycapBase c) = false) : ∀ d ∈ x.toList, (d != c) = true := by
  intro d hd
  rw [bne_iff_ne]
  rintro rfl
  simp only [Pictograph.isSymbol, Bool.and_eq_true, List.all_eq_true] at h
  have hkind := h.1 d hd
  simp_all

theorem toList_ne_nil_of_isSymbol {x : String} (h : Pictograph.isSymbol x.toList = true) :
    x.toList ≠ [] := by
  intro hnil
  rw [hnil] at h
  cases h

theorem newline_not_mem_of_isSymbol {x : String} (h : Pictograph.isSymbol x.toList = true) :
    '\n' ∉ x.toList :=
  fun hmem => absurd (bne_of_isSymbol h '\n' (by decide) '\n' hmem) (by decide)

theorem newline_not_mem_toString (n : Nat) : '\n' ∉ (toString n).toList := by
  rw [Nat.toString_eq_ofList_toDigits, String.toList_ofList]
  intro hmem
  exact absurd (Nat.isDigit_of_mem_toDigits (by decide) (by decide) hmem) (by decide)

/-! ## Lists of names -/

/-- The names of a list after the first one, as they stand behind it. -/
def followers (names : List String) : List Char :=
  names.flatMap fun x => ',' :: ' ' :: x.toList

theorem toList_intercalate_cons (x : String) (xs : List String) :
    (", ".intercalate (x :: xs)).toList = x.toList ++ followers xs := by
  induction xs generalizing x with
  | nil => simp [followers]
  | cons y ys ih =>
      rw [String.intercalate_cons_cons, String.toList_append, String.toList_append, ih]
      simp [followers]

theorem newline_not_mem_intercalate {xs : List String}
    (hxs : ∀ x ∈ xs, Pictograph.isSymbol x.toList = true) :
    '\n' ∉ (", ".intercalate xs).toList := by
  rcases xs with _ | ⟨x, xs⟩
  · simp
  · rw [List.forall_mem_cons] at hxs
    rw [toList_intercalate_cons, List.mem_append, followers, List.mem_flatMap]
    rintro (hx | ⟨y, hy, hmem⟩)
    · exact newline_not_mem_of_isSymbol hxs.1 hx
    · have hne := newline_not_mem_of_isSymbol (hxs.2 y hy)
      simp_all

/-- A name goes on to the first comma. -/
theorem append_followers_inj {x y : String} {xs ys : List String}
    (hx : Pictograph.isSymbol x.toList = true) (hy : Pictograph.isSymbol y.toList = true)
    (h : x.toList ++ followers xs = y.toList ++ followers ys) :
    x = y ∧ followers xs = followers ys := by
  have hcomma : ∀ names : List String, ∀ c ∈ (followers names).head?, (c != ',') = false := by
    intro names
    cases names <;> simp [followers]
  obtain ⟨hname, hrest⟩ := append_inj_of_run (bne_of_isSymbol hx ',' (by decide)) (hcomma xs)
    (bne_of_isSymbol hy ',' (by decide)) (hcomma ys) h
  exact ⟨String.toList_inj.mp hname, hrest⟩

section

variable {xs ys : List String} (hxs : ∀ x ∈ xs, Pictograph.isSymbol x.toList = true)
  (hys : ∀ y ∈ ys, Pictograph.isSymbol y.toList = true)

include hxs hys

theorem followers_inj (h : followers xs = followers ys) : xs = ys := by
  induction xs generalizing ys with
  | nil =>
      cases ys with
      | nil => rfl
      | cons y ys => cases h
  | cons x xs ih =>
      cases ys with
      | nil => cases h
      | cons y ys =>
          rw [List.forall_mem_cons] at hxs hys
          have hnames : x.toList ++ followers xs = y.toList ++ followers ys :=
            (List.cons.inj (List.cons.inj h).2).2
          obtain ⟨rfl, hrest⟩ := append_followers_inj hxs.1 hys.1 hnames
          rw [ih hxs.2 hys.2 hrest]

/-- No symbol is empty, so a list of names is empty if its text is. -/
theorem intercalate_inj (h : ", ".intercalate xs = ", ".intercalate ys) : xs = ys := by
  have hlist := congrArg String.toList h
  rcases xs with _ | ⟨x, xs⟩ <;> rcases ys with _ | ⟨y, ys⟩
  · rfl
  · have hne := toList_ne_nil_of_isSymbol (List.forall_mem_cons.mp hys).1
    rw [toList_intercalate_cons] at hlist
    exact absurd (List.append_eq_nil_iff.mp hlist.symm).1 hne
  · have hne := toList_ne_nil_of_isSymbol (List.forall_mem_cons.mp hxs).1
    rw [toList_intercalate_cons] at hlist
    exact absurd (List.append_eq_nil_iff.mp hlist).1 hne
  · rw [List.forall_mem_cons] at hxs hys
    rw [toList_intercalate_cons, toList_intercalate_cons] at hlist
    obtain ⟨rfl, hrest⟩ := append_followers_inj hxs.1 hys.1 hlist
    rw [followers_inj hxs.2 hys.2 hrest]

end

/-! ## Details -/

theorem newline_not_mem_append {x y : String} (hx : '\n' ∉ x.toList) (hy : '\n' ∉ y.toList) :
    '\n' ∉ (x ++ y).toList := by
  rw [String.toList_append, List.mem_append]
  exact not_or.mpr ⟨hx, hy⟩

theorem newline_not_mem_details {l : Label} (h : l.Legible) : '\n' ∉ l.details.toList := by
  cases l with
  | number value =>
      obtain ⟨n, rfl⟩ := Int.eq_ofNat_of_zero_le h
      exact newline_not_mem_append (by simp) (newline_not_mem_toString n)
  | text value => exact newline_not_mem_append (newline_not_mem_append (by simp) h) (by simp)
  | boolean value =>
      cases value
      · exact newline_not_mem_append (by simp) (show '\n' ∉ "false".toList by simp)
      · exact newline_not_mem_append (by simp) (show '\n' ∉ "true".toList by simp)
  | «variable» name | declaration name | assignment name | call name =>
      exact newline_not_mem_append (by simp) (newline_not_mem_of_isSymbol h)
  | expression operator grouped =>
      rcases operator with _ | ⟨⟨⟩⟩ <;> cases grouped <;> simp [Label.details, Operator.label]
  | definition name parameters =>
      obtain ⟨hname, hparameters⟩ := List.forall_mem_cons.mp h
      have hhead := newline_not_mem_append (x := " ") (by simp) (newline_not_mem_of_isSymbol hname)
      have hlist := newline_not_mem_intercalate hparameters
      exact newline_not_mem_append (newline_not_mem_append (newline_not_mem_append hhead (by simp))
        hlist) (by simp)
  | index offset =>
      exact newline_not_mem_append
        (newline_not_mem_append (by simp) (newline_not_mem_toString offset)) (by simp)
  | _ => simp [Label.details]

theorem toString_inj {m n : Nat} (h : toString m = toString n) : m = n := by
  have hvalue := congrArg (fun s => Nat.ofDigitChars 10 s.toList 0) h
  simpa [Nat.toString_eq_ofList_toDigits] using hvalue

/-- The operator and the flag of an expression. Only the flag is shown with parentheses. -/
theorem expression_inj {op op' : Option Operator} {g g' : Bool}
    (h : (Label.expression op g).details = (Label.expression op' g').details) :
    op = op' ∧ g = g' := by
  have hparenthesis : ∀ op g, '(' ∈ (Label.expression op g).details.toList ↔ g = true := by
    intro op g
    rcases op with _ | ⟨⟨⟩⟩ <;> cases g <;> simp [Label.details, Operator.label]
  have hflag : g = g' := by
    rw [Bool.eq_iff_iff, ← hparenthesis op g, h, hparenthesis]
  subst hflag
  refine ⟨?_, rfl⟩
  have hoperator := (String.append_left_inj _).mp h
  rcases op with _ | op <;> rcases op' with _ | op'
  · rfl
  · simp at hoperator
  · simp at hoperator
  · rw [Operator.label_inj ((String.append_right_inj " ").mp hoperator)]

/-- A definition's name goes on to the first parenthesis. -/
theorem definition_inj {name name' : String} {parameters parameters' : List String}
    (hl : (Label.definition name parameters).Legible)
    (hl' : (Label.definition name' parameters').Legible)
    (h : (Label.definition name parameters).details =
      (Label.definition name' parameters').details) :
    name = name' ∧ parameters = parameters' := by
  have hchars : ∀ (name : String) (parameters : List String),
      (Label.definition name parameters).details.toList =
        ' ' :: (name.toList ++ '(' :: ((", ".intercalate parameters).toList ++ [')'])) := by
    intro name parameters
    simp only [Label.details, String.toList_append, List.append_assoc]
    rfl
  obtain ⟨hname, hparameters⟩ := List.forall_mem_cons.mp hl
  obtain ⟨hname', hparameters'⟩ := List.forall_mem_cons.mp hl'
  have hlist := congrArg String.toList h
  rw [hchars, hchars, List.cons.injEq] at hlist
  obtain ⟨hsame, hrest⟩ := append_inj_of_run (bne_of_isSymbol hname '(' (by decide))
    (by simp) (bne_of_isSymbol hname' '(' (by decide)) (by simp) hlist.2
  refine ⟨String.toList_inj.mp hsame, intercalate_inj hparameters hparameters' ?_⟩
  exact String.toList_inj.mp (List.append_cancel_right (List.cons.inj hrest).2)

/-! ## Labels -/

/-- A keyword goes on to the first blank. -/
theorem keyword_and_details {l l' : Label} (h : l.content = l'.content) :
    l.keyword = l'.keyword ∧ l.details = l'.details := by
  have hword : ∀ l : Label, ∀ c ∈ l.keyword.toList, (c != ' ') = true := by
    intro l c hc
    rw [bne_iff_ne]
    rintro rfl
    exact absurd (isAlpha_of_mem_keyword l _ hc) (by decide)
  have hblank : ∀ l : Label, ∀ c ∈ l.details.toList.head?, (c != ' ') = false := by
    intro l c hc
    rw [head?_details l c hc]
    rfl
  have hlist := congrArg String.toList h
  rw [Label.content, Label.content, String.toList_append, String.toList_append] at hlist
  obtain ⟨hkeyword, hdetails⟩ := append_inj_of_run (hword l) (hblank l) (hword l') (hblank l') hlist
  exact ⟨String.toList_inj.mp hkeyword, String.toList_inj.mp hdetails⟩

theorem Label.fitsLine {l : Label} (h : l.Legible) : FitsLine l.content where
  newline := by
    rw [content, String.toList_append, List.mem_append]
    rintro (hkeyword | hdetails)
    · exact absurd (isAlpha_of_mem_keyword l _ hkeyword) (by decide)
    · exact newline_not_mem_details h hdetails
  blank := by
    obtain ⟨first, rest, hfirst⟩ := List.exists_cons_of_ne_nil (keyword_ne_nil l)
    have halpha := isAlpha_of_mem_keyword l first (hfirst ▸ List.mem_cons_self ..)
    rw [content, String.toList_append, hfirst]
    rintro c ⟨rfl⟩ rfl
    exact absurd halpha (by decide)

/-- **Labels.** Legible labels that read the same are equal. -/
theorem Label.eq_of_content {l l' : Label} (hl : l.Legible) (hl' : l'.Legible)
    (h : l.content = l'.content) : l = l' := by
  obtain ⟨hkeyword, hdetails⟩ := keyword_and_details h
  -- Labels of different kinds have different keywords, so only the details are left.
  cases l <;> cases l' <;> simp [keyword] at hkeyword
  case number.number value value' =>
      obtain ⟨m, rfl⟩ := Int.eq_ofNat_of_zero_le hl
      obtain ⟨n, rfl⟩ := Int.eq_ofNat_of_zero_le hl'
      rw [toString_inj ((String.append_right_inj " ").mp hdetails)]
  case text.text value value' =>
      rw [(String.append_right_inj " \"").mp ((String.append_left_inj "\"").mp hdetails)]
  case boolean.boolean value value' =>
      have hvalue := (String.append_right_inj " ").mp hdetails
      cases value <;> cases value' <;> first | rfl | exact absurd hvalue (by decide)
  case variable.variable x y | declaration.declaration x y | assignment.assignment x y |
      call.call x y =>
      rw [(String.append_right_inj " ").mp hdetails]
  case expression.expression op g op' g' =>
      obtain ⟨rfl, rfl⟩ := expression_inj hdetails
      rfl
  case definition.definition name parameters name' parameters' =>
      obtain ⟨rfl, rfl⟩ := definition_inj hl hl' hdetails
      rfl
  case index.index m n =>
      rw [toString_inj ((String.append_right_inj " [").mp ((String.append_left_inj "]").mp hdetails))]
  all_goals rfl

end Outline

end Pictoscript
