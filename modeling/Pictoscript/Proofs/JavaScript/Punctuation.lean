import Mathlib.Data.List.Chain
import Pictoscript.Proofs.JavaScript.Subscripts
import Pictoscript.Proofs.Symbols

/-! # Where the punctuation of a script comes from

Names are written into a script as they are, next to brackets and operators. Of the
characters that scripts use as punctuation a name can hold the asterisk only, and it
holds it as the base of a keycap of its own, unless the name is one of those that are
misread as symbols. So outside of text literals every such character but the asterisk
comes from a template, and no two slashes stand side by side. An asterisk behind a slash,
which opens a comment, is the first character of a name, and with this name the right
operand of a division begins.

A script is taken apart into pieces of four kinds. That a character is outside of
text literals is not read off from the pieces but found by a scan of the script.
-/

namespace Pictoscript

def Program.mentions (p : Program) : List String := p.nodes.flatMap Node.mentions

/-! ## Divisions -/

mutual
/-- The name that the script of a node begins with, if it begins with a name. -/
def Node.lead? : Node → Option String
  | .variable name _ => some name
  | .assignment target _ _ => some target.text
  | .call name _ _ => some name.text
  | .expression content _ => content.lead?
  | _ => none
def Expression.lead? : Expression → Option String
  | ⟨_, _, _, true, _⟩ => none
  | ⟨left, none, _, false, _⟩ => left.lead?
  | ⟨left, some op, _, false, _⟩ =>
    if op = .not ∨ left.isBareOperation = true then none else left.lead?
end

/-- The same where the node is an operand, and an operation has parentheses. -/
def Node.operandLead? (n : Node) : Option String :=
  if n.isBareOperation = true then none else n.lead?

def Expression.divisor? : Expression → Option Node
  | ⟨_, some .divide, right, _, _⟩ => right
  | _ => none

/-- The right operands of the divisions that a node consists of or has as its condition. -/
def Node.divisors : Node → List Node
  | .expression content _ => content.divisor?.toList
  | .branch condition _ _ _ | .loop condition _ _ => condition.divisor?.toList
  | _ => []

def Program.divisors (p : Program) : List Node := p.nodes.flatMap Node.divisors

namespace Punctuation

/-! ## Scanning a script -/

/-- What a scan of a script is in the middle of. -/
inductive Mode where
  | code
  | literal
  /-- Behind a backslash in a literal. -/
  | escaped

/-- The characters outside of text literals. A literal, from its quote to the next
one that is not escaped, leaves one gap. -/
def scan : Mode → List Char → List (Option Char)
  | _, [] => []
  | .code, c :: cs => if c = '"' then none :: scan .literal cs else some c :: scan .code cs
  | .literal, c :: cs =>
    if c = '"' then scan .code cs
    else if c = '\\' then scan .escaped cs
    else scan .literal cs
  | .escaped, _ :: cs => scan .literal cs

def outside (script : String) : List (Option Char) := scan .code script.toList

theorem scan_append {cs : List Char} (h : '"' ∉ cs) (rest : List Char) :
    scan .code (cs ++ rest) = cs.map some ++ scan .code rest := by
  induction cs with
  | nil => rfl
  | cons c cs ih =>
      obtain ⟨hc, hcs⟩ := not_or.mp (mt List.mem_cons.mpr h)
      rw [List.cons_append, scan, if_neg (Ne.symm hc), ih hcs]
      rfl

theorem scan_escape (c : Char) (cs : List Char) :
    scan .literal (Script.escape c ++ cs) = scan .literal cs := by
  unfold Script.escape
  split
  · rfl
  · rfl
  · rfl
  · rfl
  · rfl
  · next hquote hbackslash _ _ _ =>
    rw [List.singleton_append, scan, if_neg hquote, if_neg hbackslash]

theorem scan_quoted (value : String) (rest : List Char) :
    scan .code ((Script.quoted value).toList ++ rest) = none :: scan .code rest := by
  have hinside : ∀ cs : List Char,
      scan .literal (cs.flatMap Script.escape ++ '"' :: rest) = scan .code rest := by
    intro cs
    induction cs with
    | nil => rfl
    | cons c cs ih => rw [List.flatMap_cons, List.append_assoc, scan_escape, ih]
  have hchars : (Script.quoted value).toList ++ rest =
      '"' :: (value.toList.flatMap Script.escape ++ '"' :: rest) := by
    simp [Script.quoted]
  rw [hchars, scan, if_pos rfl, hinside]

/-! ## Pieces of a script -/

/-- The characters that scripts use as punctuation, blanks included. -/
def reserved : List Char :=
  ['(', ')', '[', ']', '\x7b', '\x7d', ',', ';', '=', '+', '-', '*', '/', '<', '>', '!', '&', '|',
    '"', ' ', '\n']

theorem toNat_lt_of_reserved {c : Char} (h : c ∈ reserved) : c.toNat < 0xA9 := by
  have hall : reserved.all (fun c => c.toNat < 0xA9) = true := by decide
  simpa using List.all_eq_true.mp hall c h

theorem eq_star_of_isKeycapBase {c : Char} (h : c ∈ reserved)
    (hbase : Pictograph.isKeycapBase c = true) : c = '*' := by
  have hall : reserved.all (fun c => !Pictograph.isKeycapBase c || c == '*') = true := by decide
  simpa [hbase] using List.all_eq_true.mp hall c h

/-- The texts that scripts are put together with, less the operators that join two
operands. -/
def plain : List String :=
  ["[", "]", "(", ")", "\x7b", "\x7d", ",", ";", "=", "!", "let ", "if", "else", "while",
    "function ", "true", "false", Sink.plain.callee, Sink.rich.callee]

def templates : List String :=
  plain ++ [Operator.add, .subtract, .multiply, .divide, .equal, .greater, .less,
    .greaterOrEqual, .lessOrEqual, .and, .or].map Operator.script

inductive Part where
  | template (text : String)
  | name (text : String)
  | number (value : Nat)
  | literal (value : String)

namespace Part

def text : Part → String
  | .template t | .name t => t
  | .number value => toString value
  | .literal value => Script.quoted value

def isTemplate : Part → Bool
  | .template _ => true
  | _ => false

def isName : Part → Bool
  | .name _ => true
  | _ => false

/-- The characters of the part that are outside of text literals. -/
def outside : Part → List (Option Char)
  | .literal _ => [none]
  | part => part.text.toList.map some

def IsFrom (names : List String) : Part → Prop
  | .template t => t ∈ templates
  | .name x => x ∈ names
  | _ => True

end Part

def joined : List Part → String
  | [] => ""
  | part :: parts => part.text ++ joined parts

theorem joined_append (as bs : List Part) : joined (as ++ bs) = joined as ++ joined bs := by
  induction as with
  | nil => simp [joined]
  | cons a as ih => rw [List.cons_append, joined, joined, ih, String.append_assoc]

theorem isDigit_of_number (value : Nat) : ∀ c ∈ (toString value).toList, c.isDigit = true := by
  intro c hc
  rw [Nat.toString_eq_ofList_toDigits, String.toList_ofList] at hc
  exact Nat.isDigit_of_mem_toDigits (by decide) (by decide) hc

theorem outside_joined {names : List String} (hnames : ∀ x ∈ names, '"' ∉ x.toList)
    {parts : List Part} (h : ∀ part ∈ parts, part.IsFrom names) :
    outside (joined parts) = parts.flatMap Part.outside := by
  induction parts with
  | nil => rfl
  | cons part parts ih =>
      obtain ⟨hpart, hparts⟩ := List.forall_mem_cons.mp h
      have hrest : scan .code (joined parts).toList = parts.flatMap Part.outside := ih hparts
      rw [outside, joined, String.toList_append, List.flatMap_cons, ← hrest]
      cases part with
      | literal value => exact scan_quoted value _
      | template t =>
          have hquote : ∀ t ∈ templates, '"' ∉ t.toList := by decide +kernel
          exact scan_append (hquote t hpart) _
      | name x => exact scan_append (hnames x hpart) _
      | number value =>
          apply scan_append
          intro hquote
          exact absurd (isDigit_of_number value _ hquote) (by decide)

/-! ## Parts behind a slash -/

/-- A text begins with this part, and with a name only if it is one of these. -/
def Part.Fronts (front : List String) : Part → Prop
  | .template t => t ∈ plain
  | .name x => x ∈ front
  | _ => True

def Meets (leads : List String) (a b : Part) : Prop := a = .template "/" → b.Fronts leads

/-- Behind a slash there is always a part, and it is no operator; if it is a name, it is one
of these. -/
structure Strung (leads : List String) (parts : List Part) : Prop where
  chain : parts.IsChain (Meets leads)
  last : ∀ part ∈ parts.getLast?, part ≠ .template "/"

variable {names leads front : List String}

theorem strung_nil : Strung leads [] := ⟨.nil, by simp⟩

theorem strung_singleton {part : Part} (h : part ≠ .template "/") : Strung leads [part] :=
  ⟨.singleton part, by simpa using h⟩

theorem Strung.append {as bs : List Part} (ha : Strung leads as) (hb : Strung leads bs) :
    Strung leads (as ++ bs) := by
  constructor
  · rw [List.isChain_append]
    exact ⟨ha.chain, hb.chain, fun a ha' b _ hslash => absurd hslash (ha.last a ha')⟩
  · intro part hpart
    cases bs with
    | nil => exact ha.last part (by simpa using hpart)
    | cons b bs => exact hb.last part (by simpa [List.getLast?_append] using hpart)

theorem eq_slash_of_mem {part : Part} (hfrom : part.IsFrom names)
    (hnames : ∀ x ∈ names, '/' ∉ x.toList) (h : some '/' ∈ part.outside) :
    part = .template "/" := by
  cases part with
  | template t =>
      have htemplates : templates.all (fun t => !t.toList.contains '/' || t == "/") = true := by
        decide +kernel
      have ht := List.all_eq_true.mp htemplates t hfrom
      have hmem : '/' ∈ t.toList := by simpa [Part.outside, Part.text] using h
      rw [Part.template.injEq]
      simpa [hmem] using ht
  | name x => exact absurd (by simpa [Part.outside, Part.text] using h) (hnames x hfrom)
  | number value =>
      have hdigit := isDigit_of_number value '/' (by simpa [Part.outside, Part.text] using h)
      exact absurd hdigit (by decide)
  | literal value => simp [Part.outside] at h

theorem outside_ne_nil {part : Part} (hfrom : part.IsFrom names)
    (hnames : ∀ x ∈ names, x ≠ "") : part.outside ≠ [] := by
  cases part with
  | template t =>
      have htemplates : ∀ t ∈ templates, t ≠ "" := by decide +kernel
      simpa [Part.outside, Part.text] using htemplates t hfrom
  | name x => simpa [Part.outside, Part.text] using hnames x hfrom
  | number value => simp [Part.outside, Part.text]
  | literal value => simp [Part.outside]

/-- A slash with a character behind it is a part of its own, and the character is the first
one of the next part. -/
theorem exists_split_of_slash (hslash : ∀ x ∈ names, '/' ∉ x.toList)
    (hempty : ∀ x ∈ names, x ≠ "") {parts : List Part} (hfrom : ∀ part ∈ parts, part.IsFrom names)
    {before behind : List (Option Char)} {c : Char}
    (h : parts.flatMap Part.outside = before ++ some '/' :: some c :: behind) :
    ∃ lower part upper, parts = lower ++ .template "/" :: part :: upper ∧
      lower.flatMap Part.outside = before ∧ part.outside.head? = some (some c) := by
  induction parts generalizing before with
  | nil => simp at h
  | cons part parts ih =>
      obtain ⟨hpart, hparts⟩ := List.forall_mem_cons.mp hfrom
      rw [List.flatMap_cons] at h
      rcases List.append_eq_append_iff.mp h with ⟨more, rfl, hrest⟩ | ⟨more, houtside, hrest⟩
      · obtain ⟨lower, next, upper, rfl, rfl, hhead⟩ := ih hparts hrest
        exact ⟨part :: lower, next, upper, rfl, rfl, hhead⟩
      cases more with
      | nil =>
          rw [List.append_nil] at houtside
          have hsplit : parts.flatMap Part.outside = [] ++ some '/' :: some c :: behind :=
            hrest.symm
          obtain ⟨lower, next, upper, rfl, hlower, hhead⟩ := ih hparts hsplit
          refine ⟨part :: lower, next, upper, rfl, ?_, hhead⟩
          rw [List.flatMap_cons, hlower, houtside, List.append_nil]
      | cons s more =>
          obtain ⟨rfl, hmore⟩ := List.cons.inj hrest
          obtain rfl : part = .template "/" := by
            apply eq_slash_of_mem hpart hslash
            rw [houtside]
            simp
          have hsingle : ['/'].map some = before ++ some '/' :: more := houtside
          obtain ⟨rfl, rfl⟩ : before = [] ∧ more = [] := by
            cases before with
            | nil => simpa using hsingle
            | cons s before => simp at hsingle
          cases parts with
          | nil => cases hmore
          | cons next parts =>
              refine ⟨[], next, parts, rfl, rfl, ?_⟩
              have hne := outside_ne_nil (hparts next (by simp)) hempty
              obtain ⟨first, others, hnext⟩ := List.exists_cons_of_ne_nil hne
              rw [List.flatMap_cons, hnext] at hmore
              rw [hnext]
              simpa using (List.cons.inj hmore).1.symm

theorem name_of_fronts {part : Part} {c : Char} (h : part.Fronts front)
    (hfrom : part.IsFrom names) (hnames : ∀ x ∈ names, '/' ∉ x.toList) (hc : c = '/' ∨ c = '*')
    (hhead : part.outside.head? = some (some c)) :
    c = '*' ∧ ∃ x ∈ front, part = .name x ∧ x.toList.head? = some '*' := by
  cases part with
  | template t =>
      have hplain : plain.all (fun t => t.toList.head? != some '/' && t.toList.head? != some '*') =
          true := by
        decide +kernel
      have ht := List.all_eq_true.mp hplain t h
      have hfirst : t.toList.head? = some c := by simpa [Part.outside, Part.text] using hhead
      rcases hc with rfl | rfl <;> simp [hfirst] at ht
  | name x =>
      have hfirst : x.toList.head? = some c := by simpa [Part.outside, Part.text] using hhead
      rcases hc with rfl | rfl
      · exact absurd (List.mem_of_head? hfirst) (hnames x hfrom)
      · exact ⟨rfl, x, h, rfl, hfirst⟩
  | number value =>
      have hfirst : (toString value).toList.head? = some c := by
        simpa [Part.outside, Part.text] using hhead
      have hdigit := isDigit_of_number value c (List.mem_of_head? hfirst)
      rcases hc with rfl | rfl <;> exact absurd hdigit (by decide)
  | literal value => simp [Part.outside] at hhead

/-! ## Texts put together from parts -/

def Composed (names leads : List String) (text : String) : Prop :=
  ∃ parts : List Part, joined parts = text ∧ (∀ part ∈ parts, part.IsFrom names) ∧
    Strung leads parts

/-- The text can stand behind a slash, if the names it may begin with can. -/
def Solid (names leads front : List String) (text : String) : Prop :=
  ∃ (part : Part) (parts : List Part), joined (part :: parts) = text ∧
    (∀ q ∈ part :: parts, q.IsFrom names) ∧ Strung leads (part :: parts) ∧ part.Fronts front

variable {a b text : String}

theorem composed_empty : Composed names leads "" := ⟨[], rfl, by simp, strung_nil⟩

theorem Solid.composed (h : Solid names leads front text) : Composed names leads text := by
  obtain ⟨part, parts, hjoined, hfrom, hstrung, -⟩ := h
  exact ⟨part :: parts, hjoined, hfrom, hstrung⟩

theorem Composed.append (ha : Composed names leads a) (hb : Composed names leads b) :
    Composed names leads (a ++ b) := by
  obtain ⟨as, rfl, hasFrom, hasStrung⟩ := ha
  obtain ⟨bs, rfl, hbsFrom, hbsStrung⟩ := hb
  exact ⟨as ++ bs, joined_append as bs, List.forall_mem_append.mpr ⟨hasFrom, hbsFrom⟩,
    hasStrung.append hbsStrung⟩

theorem Solid.append (ha : Solid names leads front a) (hb : Composed names leads b) :
    Solid names leads front (a ++ b) := by
  obtain ⟨part, parts, rfl, hfrom, hstrung, hfront⟩ := ha
  obtain ⟨bs, rfl, hbsFrom, hbsStrung⟩ := hb
  exact ⟨part, parts ++ bs, joined_append (part :: parts) bs,
    List.forall_mem_append.mpr ⟨hfrom, hbsFrom⟩, hstrung.append hbsStrung, hfront⟩

theorem solid_part (part : Part) (hfrom : part.IsFrom names) (hne : part ≠ .template "/")
    (hfront : part.Fronts front) : Solid names leads front part.text :=
  ⟨part, [], by simp [joined], by simpa using hfrom, strung_singleton hne, hfront⟩

theorem solid_template (h : text ∈ plain) : Solid names leads front text := by
  refine solid_part (.template text) (List.mem_append_left _ h) ?_ h
  rintro ⟨rfl⟩
  exact absurd h (by decide +kernel)

theorem solid_name (h : text ∈ names) : Solid names leads [text] text :=
  solid_part (.name text) h (by simp) (List.mem_singleton.mpr rfl)

theorem solid_number (value : Nat) : Solid names leads front (toString value) :=
  solid_part (.number value) trivial (by simp) trivial

theorem solid_literal (value : String) : Solid names leads front (Script.quoted value) :=
  solid_part (.literal value) trivial (by simp) trivial

/-- The right operand of a division stands behind a slash. -/
theorem solid_operation {op : Operator} {front' : List String} (hne : op ≠ .not)
    (ha : Solid names leads front a) (hb : Solid names leads front' b)
    (hdivisor : op = .divide → ∀ x ∈ front', x ∈ leads) :
    Solid names leads front (a ++ op.script ++ b) := by
  obtain ⟨part, parts, rfl, hfrom, hstrung, hfront⟩ := ha
  obtain ⟨next, others, rfl, hnextFrom, hnextStrung, hnextFront⟩ := hb
  have hop : op.script ∈ templates := by
    apply List.mem_append_right
    apply List.mem_map_of_mem
    cases op with
    | not => exact absurd rfl hne
    | _ => decide
  have hbehind : Strung leads (.template op.script :: next :: others) := by
    constructor
    · rw [List.isChain_cons_cons]
      refine ⟨?_, hnextStrung.chain⟩
      intro hslash
      have hdivide : op = .divide := by
        have hscript := Part.template.inj hslash
        revert hscript
        cases op <;> decide
      cases next with
      | name x => exact hdivisor hdivide x hnextFront
      | _ => exact hnextFront
    · intro q hq
      exact hnextStrung.last q (by simpa using hq)
  refine ⟨part, parts ++ .template op.script :: next :: others, ?_, ?_, ?_, hfront⟩
  · rw [← List.cons_append, joined_append, String.append_assoc]
    rfl
  · have hoperator : (Part.template op.script).IsFrom names := hop
    exact List.forall_mem_append.mpr ⟨hfrom, List.forall_mem_cons.mpr ⟨hoperator, hnextFrom⟩⟩
  · exact hstrung.append hbehind

theorem composed_intercalate {separator : String} (hseparator : Composed names leads separator)
    {texts : List String} (h : ∀ text ∈ texts, Composed names leads text) :
    Composed names leads (separator.intercalate texts) := by
  induction texts with
  | nil => exact composed_empty
  | cons a texts ih =>
      obtain ⟨ha, htexts⟩ := List.forall_mem_cons.mp h
      cases texts with
      | nil => simpa using ha
      | cons b texts =>
          rw [String.intercalate_cons_cons]
          exact (ha.append hseparator).append (ih htexts)

theorem solid_enclosed {opening closing : String} (hopening : opening ∈ plain)
    (hclosing : closing ∈ plain) (h : Composed names leads text) :
    Solid names leads front (opening ++ text ++ closing) := by
  have hend : Solid names leads [] closing := solid_template hclosing
  exact ((solid_template hopening).append h).append hend.composed

theorem solid_parenthesized (h : Composed names leads text) :
    Solid names leads front (Script.parenthesized text) :=
  solid_enclosed (by simp [plain]) (by simp [plain]) h

theorem solid_braced (h : Composed names leads text) :
    Solid names leads front (Script.braced text) :=
  solid_enclosed (by simp [plain]) (by simp [plain]) h

theorem Solid.assigned (ha : Solid names leads front a) (hb : Composed names leads b) :
    Solid names leads front (a ++ "=" ++ b) := by
  have hequals : Solid names leads [] "=" := solid_template (by simp [plain])
  exact (ha.append hequals.composed).append hb

theorem Solid.enclose {front' : List String} (h : Solid names leads front text) (grouped : Bool)
    (hfront : grouped = false → front = front') :
    Solid names leads front' (Script.enclose grouped text) := by
  cases grouped with
  | false => exact hfront rfl ▸ h
  | true => exact solid_parenthesized h.composed

theorem Solid.asOperand {n : Node} (h : Solid names leads n.lead?.toList text) :
    Solid names leads n.operandLead?.toList (Script.asOperand n text) := by
  unfold Script.asOperand Node.operandLead?
  by_cases hbare : n.isBareOperation = true
  · rw [if_pos hbare, if_pos hbare]
    exact solid_parenthesized h.composed
  · rw [if_neg hbare, if_neg hbare]
    exact h

theorem Composed.subscript (h : Composed names leads text) (k : Nat) :
    Composed names leads (text ++ s!"[{k}]") := by
  have hnumber : Solid names leads [] (toString k) := solid_number k
  have hbracketed : Solid names leads [] ("[" ++ toString k ++ "]") :=
    solid_enclosed (by simp [plain]) (by simp [plain]) hnumber.composed
  exact h.append hbracketed.composed

section

variable {fragments : List Script.Fragment} (h : ∀ f ∈ fragments, Composed names leads f.text)
include h

theorem composed_enumeration : Composed names leads (Script.enumeration fragments) := by
  have hcomma : Solid names leads [] "," := solid_template (by simp [plain])
  apply composed_intercalate hcomma.composed
  simpa [Script.texts] using h

theorem composed_sequence : Composed names leads (Script.sequence fragments) := by
  have hsemicolon : Solid names leads [] ";" := solid_template (by simp [plain])
  apply composed_intercalate hsemicolon.composed
  simpa [Script.texts] using h

/-- A keyword, a condition and a block. -/
theorem solid_guarded {keyword : String} (hkeyword : keyword ∈ plain)
    (hcondition : Composed names leads text) :
    Solid names leads front (keyword ++ Script.parenthesized text ++
      Script.braced (Script.sequence fragments)) := by
  have hparenthesized : Solid names leads [] (Script.parenthesized text) :=
    solid_parenthesized hcondition
  have hbody : Solid names leads [] (Script.braced (Script.sequence fragments)) :=
    solid_braced (composed_sequence h)
  exact ((solid_template hkeyword).append hparenthesized.composed).append hbody.composed

end

/-! ## Texts of nodes -/

/-- A number has no sign, and the names of the node are among the names. -/
def Suits (names : List String) : Node → Prop
  | .number value _ => 0 ≤ value
  | n => ∀ x ∈ n.mentions, x ∈ names

def Leads (leads : List String) (r : Node) : Prop := ∀ x ∈ r.operandLead?.toList, x ∈ leads

def Apt (names leads : List String) (n : Node) : Prop :=
  Suits names n ∧ ∀ r ∈ n.divisors, Leads leads r

variable {sink : Sink}

mutual
theorem solid_node : ∀ n : Node, (∀ m ∈ n.nodes, Apt names leads m) → ∀ {s text t},
    Script.node sink n s = (.ok text, t) → Solid names leads n.lead?.toList text
  | .number value p, hapt, s, text, t, h => by
      obtain ⟨k, rfl⟩ := Int.eq_ofNat_of_zero_le (hapt _ (List.mem_cons_self ..)).1
      cases h
      exact solid_number k
  | .text value _, _, s, text, t, h => by
      cases h
      exact solid_literal value
  | .boolean value _, _, s, text, t, h => by
      cases h
      cases value with
      | false =>
          show Solid names leads _ "false"
          exact solid_template (by simp [plain])
      | true =>
          show Solid names leads _ "true"
          exact solid_template (by simp [plain])
  | .variable name p, hapt, s, text, t, h => by
      cases h
      apply solid_name
      exact (hapt _ (List.mem_cons_self ..)).1 name (by simp [Node.mentions])
  | .array elements _, hapt, s, text, t, h => by
      obtain ⟨fragments, hmembers, rfl⟩ := Rendering.map_eq_ok_iff.mp h
      rw [Node.nodes, List.forall_mem_cons] at hapt
      have hall := composed_members elements hapt.2 (by simp) hmembers
      exact solid_enclosed (by simp [plain]) (by simp [plain]) (composed_enumeration hall)
  | .expression content _, hapt, s, text, t, h => by
      rw [Node.nodes, List.forall_mem_cons] at hapt
      exact solid_expression content hapt.2 (by simpa [Node.divisors] using hapt.1.2) h
  | .declaration name value p, hapt, s, text, t, h => by
      obtain ⟨inner, u, hvalue, hrest⟩ := Rendering.bind_eq_ok_iff.mp h
      obtain ⟨-, u', -, hrest⟩ := Rendering.bind_eq_ok_iff.mp hrest
      cases hrest
      rw [Node.nodes, List.forall_mem_cons] at hapt
      have hname : Solid names leads _ name.text :=
        solid_name (hapt.1.1 _ (by simp [Node.mentions]))
      have hinner := solid_node value hapt.2 hvalue
      have hlet : Solid names leads [] "let " := solid_template (by simp [plain])
      exact (hlet.append hname.composed).assigned hinner.composed
  | .assignment target value p, hapt, s, text, t, h => by
      obtain ⟨inner, hvalue, rfl⟩ := Rendering.map_eq_ok_iff.mp h
      rw [Node.nodes, List.forall_mem_cons] at hapt
      have hname : Solid names leads [target.text] target.text :=
        solid_name (hapt.1.1 _ (by simp [Node.mentions]))
      have hinner := solid_node value hapt.2 hvalue
      exact hname.assigned hinner.composed
  | .branch condition consequent none _, hapt, s, text, t, h => by
      obtain ⟨test, u, htest, hrest⟩ := Rendering.bind_eq_ok_iff.mp h
      obtain ⟨fragments, hmembers, rfl⟩ := Rendering.map_eq_ok_iff.mp hrest
      obtain ⟨inner, hmembers⟩ := Rendering.inBlock_eq_ok hmembers
      rw [Node.nodes, List.forall_mem_cons, Node.descendants, List.forall_mem_append] at hapt
      have hcondition :=
        solid_expression condition hapt.2.1 (by simpa [Node.divisors] using hapt.1.2) htest
      have hall := composed_members consequent hapt.2.2 (by simp) hmembers
      exact solid_guarded hall (by simp [plain]) hcondition.composed
  | .branch condition consequent (some alternative) _, hapt, s, text, t, h => by
      obtain ⟨test, u, htest, hrest⟩ := Rendering.bind_eq_ok_iff.mp h
      obtain ⟨fragments, u', hmembers, hrest⟩ := Rendering.bind_eq_ok_iff.mp hrest
      obtain ⟨others, hothers, rfl⟩ := Rendering.map_eq_ok_iff.mp hrest
      obtain ⟨inner, hmembers⟩ := Rendering.inBlock_eq_ok hmembers
      obtain ⟨inner', hothers⟩ := Rendering.inBlock_eq_ok hothers
      rw [Node.nodes, List.forall_mem_cons, Node.descendants, List.forall_mem_append,
        List.forall_mem_append] at hapt
      have hcondition :=
        solid_expression condition hapt.2.1.1 (by simpa [Node.divisors] using hapt.1.2) htest
      have hall := composed_members consequent hapt.2.1.2 (by simp) hmembers
      have hall' := composed_members alternative hapt.2.2 (by simp) hothers
      have hkeyword : "if" ∈ plain := by simp [plain]
      have hpositive : Solid names leads [] ("if" ++ Script.parenthesized test ++
          Script.braced (Script.sequence fragments)) :=
        solid_guarded hall hkeyword hcondition.composed
      have helse : Solid names leads [] "else" := solid_template (by simp [plain])
      have hnegative : Solid names leads [] (Script.braced (Script.sequence others)) :=
        solid_braced (composed_sequence hall')
      exact (hpositive.append helse.composed).append hnegative.composed
  | .loop condition body _, hapt, s, text, t, h => by
      obtain ⟨test, u, htest, hrest⟩ := Rendering.bind_eq_ok_iff.mp h
      obtain ⟨fragments, hmembers, rfl⟩ := Rendering.map_eq_ok_iff.mp hrest
      obtain ⟨inner, hmembers⟩ := Rendering.inBlock_eq_ok hmembers
      rw [Node.nodes, List.forall_mem_cons, Node.descendants, List.forall_mem_append] at hapt
      have hcondition :=
        solid_expression condition hapt.2.1 (by simpa [Node.divisors] using hapt.1.2) htest
      have hall := composed_members body hapt.2.2 (by simp) hmembers
      exact solid_guarded hall (by simp [plain]) hcondition.composed
  | .definition name parameters body p, hapt, s, text, t, h => by
      obtain ⟨-, u, -, hrest⟩ := Rendering.bind_eq_ok_iff.mp h
      obtain ⟨-, u', -, hrest⟩ := Rendering.bind_eq_ok_iff.mp hrest
      obtain ⟨fragments, hblock, rfl⟩ := Rendering.map_eq_ok_iff.mp hrest
      obtain ⟨inner, hblock⟩ := Rendering.inBlock_eq_ok hblock
      obtain ⟨-, u'', -, hmembers⟩ := Rendering.bind_eq_ok_iff.mp hblock
      rw [Node.nodes, List.forall_mem_cons] at hapt
      obtain ⟨⟨hmentions, -⟩, hbelow⟩ := hapt
      have hname : Solid names leads _ name.text :=
        solid_name (hmentions _ (by simp [Node.mentions]))
      have hcomma : Solid names leads [] "," := solid_template (by simp [plain])
      have hparameters : Composed names leads (",".intercalate (parameters.map Name.text)) := by
        apply composed_intercalate hcomma.composed
        intro x hx
        exact (solid_name (hmentions x (List.mem_cons_of_mem _ hx))).composed
      have hheader : Solid names leads []
          (Script.parenthesized (",".intercalate (parameters.map Name.text))) :=
        solid_parenthesized hparameters
      have hall := composed_members body hbelow (by simp) hmembers
      have hbody : Solid names leads [] (Script.braced (Script.sequence fragments)) :=
        solid_braced (composed_sequence hall)
      have hfunction : Solid names leads [] "function " := solid_template (by simp [plain])
      exact ((hfunction.append hname.composed).append hheader.composed).append hbody.composed
  | .call name arguments p, hapt, s, text, t, h => by
      obtain ⟨-, u, -, hrest⟩ := Rendering.bind_eq_ok_iff.mp h
      obtain ⟨fragments, hmembers, rfl⟩ := Rendering.map_eq_ok_iff.mp hrest
      rw [Node.nodes, List.forall_mem_cons] at hapt
      have hname : Solid names leads [name.text] name.text :=
        solid_name (hapt.1.1 _ (by simp [Node.mentions]))
      have hall := composed_members arguments hapt.2 (by simp) hmembers
      have harguments : Solid names leads [] (Script.parenthesized (Script.enumeration fragments)) :=
        solid_parenthesized (composed_enumeration hall)
      exact hname.append harguments.composed
  | .index .., _, s, text, t, h => by cases h
  | .print value _, hapt, s, text, t, h => by
      obtain ⟨inner, hvalue, rfl⟩ := Rendering.map_eq_ok_iff.mp h
      rw [Node.nodes, List.forall_mem_cons] at hapt
      have hinner := solid_node value hapt.2 hvalue
      have hcallee : sink.callee ∈ plain := by cases sink <;> simp [plain]
      exact solid_enclosed hcallee (by simp [plain]) hinner.composed
theorem solid_expression : ∀ e : Expression, (∀ m ∈ e.nodes, Apt names leads m) →
    (∀ r ∈ e.divisor?, Leads leads r) → ∀ {s text t},
      Script.expression sink e s = (.ok text, t) → Solid names leads e.lead?.toList text
  | ⟨left, none, none, grouped, _⟩, hapt, _, s, text, t, h => by
      obtain ⟨inner, hleft, rfl⟩ := Rendering.map_eq_ok_iff.mp h
      apply (solid_node left hapt hleft).enclose grouped
      rintro rfl
      rfl
  | ⟨_, none, some _, _, _⟩, _, _, s, text, t, h => by cases h
  | ⟨left, some op, none, grouped, _⟩, hapt, _, s, text, t, h => by
      cases op with
      | not =>
          obtain ⟨inner, hleft, rfl⟩ := Rendering.map_eq_ok_iff.mp h
          have hinner := (solid_node left hapt hleft).asOperand
          have hnot : Solid names leads [] "!" := solid_template (by simp [plain])
          apply (hnot.append hinner.composed).enclose grouped
          rintro rfl
          simp [Expression.lead?]
      | _ => cases h
  | ⟨left, some op, some right, grouped, _⟩, hapt, hdivisor, s, text, t, h => by
      by_cases hop : op = .not
      · subst hop
        cases h
      · rw [Script.expression_of_ne_not hop, Rendering.bind_eq_ok_iff] at h
        obtain ⟨first, u, hfirst, hrest⟩ := h
        obtain ⟨second, hsecond, rfl⟩ := Rendering.map_eq_ok_iff.mp hrest
        rw [Expression.nodes, List.forall_mem_append] at hapt
        have hleft := (solid_node left hapt.1 hfirst).asOperand
        have hright := (solid_node right hapt.2 hsecond).asOperand
        have hleads : op = .divide → Leads leads right := by
          rintro rfl
          exact hdivisor right rfl
        apply (solid_operation hop hleft hright hleads).enclose grouped
        rintro rfl
        simp [Expression.lead?, Node.operandLead?, hop]
/-- Each member adds a fragment, or a subscript to one. -/
theorem composed_members : ∀ ns : List Node, (∀ m ∈ Node.among ns, Apt names leads m) →
    ∀ {done s fragments t}, (∀ f ∈ done, Composed names leads f.text) →
      Script.members sink done ns s = (.ok fragments, t) →
        ∀ f ∈ fragments, Composed names leads f.text
  | [], _, done, s, fragments, t, hdone, h => by
      cases h
      exact hdone
  | n :: ns, hapt, done, s, fragments, t, hdone, h => by
      rw [Node.among, List.forall_mem_append] at hapt
      cases hindex : n.isIndex with
      | true =>
          obtain ⟨k, p, rfl⟩ := Subscripts.isIndex_iff.mp hindex
          obtain ⟨last, before, rfl, -, hrest⟩ := Subscripts.members_index h
          rw [List.forall_mem_cons] at hdone
          refine composed_members ns hapt.2 ?_ hrest
          exact List.forall_mem_cons.mpr ⟨hdone.1.subscript k, hdone.2⟩
      | false =>
          rw [Script.members_cons hindex, Rendering.bind_eq_ok_iff] at h
          obtain ⟨text, u, htext, hrest⟩ := h
          have hsolid := solid_node n hapt.1 htext
          refine composed_members ns hapt.2 ?_ hrest
          exact List.forall_mem_cons.mpr ⟨hsolid.composed, hdone⟩
end


/-! ## Names and scripts -/

/-- Of the punctuation only the asterisk can be part of a symbol. -/
theorem eq_star_of_isSymbol {x : String} (h : Pictograph.isSymbol x.toList = true) {c : Char}
    (hc : c ∈ x.toList) (hreserved : c ∈ reserved) : c = '*' := by
  have hpart := (Pictograph.isSymbol_iff.mp h).1 c hc
  rcases Pictograph.isPart_iff.mp hpart with (hpictographic | hcomponent) | hbase
  · have hle : 0xA9 ≤ c.toNat := Pictograph.le_toNat_of_inRanges (by decide) hpictographic
    exact absurd hle (Nat.not_le_of_lt (toNat_lt_of_reserved hreserved))
  · have hle : 0xA9 ≤ c.toNat := Pictograph.le_toNat_of_inRanges (by decide) hcomponent
    exact absurd hle (Nat.not_le_of_lt (toNat_lt_of_reserved hreserved))
  · exact eq_star_of_isKeycapBase hreserved hbase

/-- The asterisk has a keycap of its own, unless the symbol is a misread one. -/
theorem opensKeycap_or_misread {x : String} (h : Pictograph.isSymbol x.toList = true)
    {before behind : List Char} (hx : x.toList = before ++ '*' :: behind) :
    Pictograph.opensKeycap behind = true ∨ Pictograph.Misread x.toList := by
  rcases Pictograph.wellFormed_or_misread h with hwell | hmisread
  · left
    have henclosed := (Pictograph.wellFormed_iff.mp hwell).2.1
    rw [← Bool.not_eq_false]
    intro hstray
    exact Pictograph.allEnclosed_iff.mp henclosed ⟨before, '*', behind, hx, by decide, hstray⟩
  · exact .inr hmisread

/-- The parts make up the script, and the characters outside of text literals
are those of its templates, names and numbers. -/
structure Composes (names : List String) (parts : List Part) (script : String) : Prop where
  whole : joined parts = script
  origin : ∀ part ∈ parts, part.IsFrom names
  outside : outside script = parts.flatMap Part.outside

theorem isTemplate_or_name {part : Part} (hpart : part.IsFrom names) {c : Char}
    (hreserved : c ∈ reserved) (hc : some c ∈ part.outside) :
    part.isTemplate = true ∨ part.isName = true ∧ ∃ x ∈ names, c ∈ x.toList := by
  cases part with
  | template t => exact .inl rfl
  | name x => exact .inr ⟨rfl, x, hpart, by simpa [Part.outside, Part.text] using hc⟩
  | number value =>
      have hdigit := isDigit_of_number value c (by simpa [Part.outside, Part.text] using hc)
      obtain rfl := eq_star_of_isKeycapBase hreserved (by simp [Pictograph.isKeycapBase, hdigit])
      exact absurd hdigit (by decide)
  | literal value => simp [Part.outside] at hc

section

variable {source script : String} {p : Program} (hsource : Program.ofSource source = .ok p)
include hsource

theorem isSymbol_of_names : ∀ x ∈ p.mentions, Pictograph.isSymbol x.toList = true := by
  intro x hx
  obtain ⟨n, hn, hmention⟩ := List.mem_flatMap.mp hx
  exact Program.isSymbol_of_mentions hsource hn x hmention

theorem suits_of_nodes : ∀ n ∈ p.nodes, Suits p.mentions n := by
  intro n hn
  have hmentions : ∀ x ∈ n.mentions, x ∈ p.mentions :=
    fun x hx => List.mem_flatMap.mpr ⟨n, hn, hx⟩
  cases n with
  | number value q =>
      have hshape := Shape.exists_place_of_block (Shape.block_of_ofSource hsource)
      obtain ⟨place, hplace⟩ := Shape.exists_place_of_among p.statements hshape _ hn
      simp only [Shape.node, Bool.and_eq_true, decide_eq_true_eq] at hplace
      exact hplace.1
  | _ => exact hmentions

/-- A character other than the asterisk is in no name. -/
theorem not_mem_of_reserved {c : Char} (hreserved : c ∈ reserved) (hne : c ≠ '*') :
    ∀ x ∈ p.mentions, c ∉ x.toList := by
  intro x hx hc
  exact hne (eq_star_of_isSymbol (isSymbol_of_names hsource x hx) hc hreserved)

theorem exists_parts_of_compile (hscript : compile sink source = .ok script) :
    ∃ parts, Composes p.mentions parts script ∧
      Strung (p.divisors.flatMap fun r => r.operandLead?.toList) parts := by
  have hapt : ∀ n ∈ p.nodes,
      Apt p.mentions (p.divisors.flatMap fun r => r.operandLead?.toList) n := by
    intro n hn
    refine ⟨suits_of_nodes hsource n hn, ?_⟩
    intro r hr x hx
    exact List.mem_flatMap.mpr ⟨r, List.mem_flatMap.mpr ⟨n, hn, hr⟩, hx⟩
  have hrendered : p.script sink = .ok script := Subscripts.script_of_compile hsource hscript
  rw [Program.script] at hrendered
  split at hrendered
  · next fragments t hmembers =>
    cases hrendered
    have hall := composed_members p.statements hapt (by simp) hmembers
    obtain ⟨parts, hjoined, hfrom, hstrung⟩ := composed_sequence hall
    have houtside := outside_joined (not_mem_of_reserved hsource (by decide) (by decide)) hfrom
    rw [hjoined] at houtside
    exact ⟨parts, ⟨hjoined, hfrom, houtside⟩, hstrung⟩
  · cases hrendered

/-- What is next to a slash outside of text literals. -/
theorem exists_divisor (hscript : compile sink source = .ok script) :
    ∃ parts, Composes p.mentions parts script ∧
      ∀ before behind c, outside script = before ++ some '/' :: some c :: behind →
        c = '/' ∨ c = '*' → c = '*' ∧ ∃ front x back,
          parts = front ++ .template "/" :: .name x :: back ∧
            front.flatMap Part.outside = before ∧ x.toList.head? = some '*' ∧
              ∃ r ∈ p.divisors, r.operandLead? = some x := by
  obtain ⟨parts, hparts, hstrung⟩ := exists_parts_of_compile hsource hscript
  have hslash : ∀ x ∈ p.mentions, '/' ∉ x.toList :=
    not_mem_of_reserved hsource (by decide) (by decide)
  have hempty : ∀ x ∈ p.mentions, x ≠ "" := by
    rintro x hx rfl
    exact absurd (isSymbol_of_names hsource "" hx) (by decide)
  refine ⟨parts, hparts, ?_⟩
  intro before behind c hsplit hc
  rw [hparts.outside] at hsplit
  obtain ⟨front, next, back, rfl, hbefore, hhead⟩ :=
    exists_split_of_slash hslash hempty hparts.origin hsplit
  have hchain := (List.isChain_append.mp hstrung.chain).2.1
  have hfronts := (List.isChain_cons_cons.mp hchain).1 rfl
  obtain ⟨rfl, x, hx, rfl, hstar⟩ :=
    name_of_fronts hfronts (hparts.origin next (by simp)) hslash hc hhead
  obtain ⟨r, hr, hlead⟩ := List.mem_flatMap.mp hx
  exact ⟨rfl, front, x, back, rfl, hbefore, hstar, r, hr, by simpa using hlead⟩

/-- Punctuation in a script comes from templates, except for the asterisks of names, and
these have keycaps of their own. No line comment is in a script. A block comment opens
only where a division has an operand behind its slash that begins with such an asterisk. -/
theorem compile_punctuation :
    (∀ x ∈ p.mentions, ∀ before c behind, x.toList = before ++ c :: behind → c ∈ reserved →
      c = '*' ∧ (Pictograph.opensKeycap behind = true ∨ Pictograph.Misread x.toList)) ∧
    ∀ sink script, compile sink source = .ok script →
      ∃ parts, Composes p.mentions parts script ∧
        (∀ part ∈ parts, ∀ c ∈ reserved, some c ∈ part.outside →
          part.isTemplate = true ∨ c = '*' ∧ part.isName = true) ∧
        ¬[some '/', some '/'] <:+: outside script ∧
        ∀ before behind, outside script = before ++ some '/' :: some '*' :: behind →
          ∃ front x back, parts = front ++ .template "/" :: .name x :: back ∧
            front.flatMap Part.outside = before ∧ x.toList.head? = some '*' ∧
              ∃ r ∈ p.divisors, r.operandLead? = some x := by
  have hstar : ∀ x ∈ p.mentions, ∀ c ∈ x.toList, c ∈ reserved → c = '*' :=
    fun x hx c => eq_star_of_isSymbol (isSymbol_of_names hsource x hx)
  constructor
  · intro x hx before c behind hsplit hreserved
    obtain rfl := hstar x hx c (by simp [hsplit]) hreserved
    exact ⟨rfl, opensKeycap_or_misread (isSymbol_of_names hsource x hx) hsplit⟩
  intro sink script hscript
  obtain ⟨parts, hparts, hbehind⟩ := exists_divisor hsource hscript
  refine ⟨parts, hparts, ?_, ?_, ?_⟩
  · intro part hpart c hreserved hc
    rcases isTemplate_or_name (hparts.origin part hpart) hreserved hc with h | ⟨h, x, hx, hcx⟩
    · exact .inl h
    · exact .inr ⟨hstar x hx c hcx hreserved, h⟩
  · rintro ⟨before, behind, hpair⟩
    have hsplit : outside script = before ++ some '/' :: some '/' :: behind := by
      simp [← hpair]
    exact absurd (hbehind before behind '/' hsplit (.inl rfl)).1 (by decide)
  · intro before behind hsplit
    exact (hbehind before behind '*' hsplit (.inr rfl)).2

end

/-- A name that begins with an asterisk opens no comment where it is not divided by. -/
theorem compile_punctuation_quotient :
    compile .plain "📝 *️⃣ 👉 1️⃣ 📢 🍉 ➗ 🍇" = .ok "let *️⃣=1;console.log(🍉/🍇)" ∧
      ¬[some '/', some '*'] <:+: outside "let *️⃣=1;console.log(🍉/🍇)" := by
  have htokens : tokenize "📝 *️⃣ 👉 1️⃣ 📢 🍉 ➗ 🍇" =
      ⟨[⟨.declare, ⟨1, 1⟩⟩, ⟨.symbol "*️⃣", ⟨1, 3⟩⟩, ⟨.arrow, ⟨1, 7⟩⟩, ⟨.digit 1, ⟨1, 9⟩⟩,
        ⟨.print, ⟨1, 13⟩⟩, ⟨.symbol "🍉", ⟨1, 15⟩⟩, ⟨.operator .divide, ⟨1, 17⟩⟩,
        ⟨.symbol "🍇", ⟨1, 19⟩⟩], ⟨1, 20⟩⟩ := by
    decide +kernel
  let program : Program :=
    ⟨[.declaration ⟨"*️⃣", ⟨1, 3⟩⟩ (.number 1 ⟨1, 9⟩) ⟨1, 1⟩,
      .print (.expression ⟨.variable "🍉" ⟨1, 15⟩, some .divide,
        some (.variable "🍇" ⟨1, 19⟩), false, ⟨1, 17⟩⟩ ⟨1, 17⟩) ⟨1, 13⟩], ⟨1, 1⟩⟩
  have hsource : Program.ofSource "📝 *️⃣ 👉 1️⃣ 📢 🍉 ➗ 🍇" = .ok program := by
    rw [Program.ofSource, htokens]
    rfl
  have hscript : compile .plain "📝 *️⃣ 👉 1️⃣ 📢 🍉 ➗ 🍇" = .ok "let *️⃣=1;console.log(🍉/🍇)" := by
    rw [compile, hsource]
    decide +kernel
  refine ⟨hscript, ?_⟩
  obtain ⟨parts, -, -, -, hcomment⟩ := (compile_punctuation hsource).2 .plain _ hscript
  rintro ⟨before, behind, hpair⟩
  have hsplit : outside "let *️⃣=1;console.log(🍉/🍇)" =
      before ++ some '/' :: some '*' :: behind := by
    simp [← hpair]
  obtain ⟨front, x, back, -, -, hstar, r, hr, hlead⟩ := hcomment before behind hsplit
  obtain rfl : r = .variable "🍇" ⟨1, 19⟩ := List.mem_singleton.mp hr
  cases hlead
  exact absurd hstar (by decide)

/-- A name that begins with an asterisk makes a comment of what is behind a slash. -/
theorem compile_opens_comment :
    ∃ p, Program.ofSource "🍉 ➗ *️⃣" = .ok p ∧ (∃ x ∈ p.mentions, '*' ∈ x.toList) ∧
      compile .plain "🍉 ➗ *️⃣" = .ok "🍉/*️⃣" ∧
      [some '/', some '*'] <:+: outside "🍉/*️⃣" := by
  have htokens : tokenize "🍉 ➗ *️⃣" =
      ⟨[⟨.symbol "🍉", ⟨1, 1⟩⟩, ⟨.operator .divide, ⟨1, 3⟩⟩, ⟨.symbol "*️⃣", ⟨1, 5⟩⟩], ⟨1, 8⟩⟩ := by
    decide +kernel
  let program : Program := ⟨[.expression ⟨.variable "🍉" ⟨1, 1⟩, some .divide,
    some (.variable "*️⃣" ⟨1, 5⟩), false, ⟨1, 3⟩⟩ ⟨1, 3⟩], ⟨1, 1⟩⟩
  have hsource : Program.ofSource "🍉 ➗ *️⃣" = .ok program := by
    rw [Program.ofSource, htokens]
    rfl
  have hscript : compile .plain "🍉 ➗ *️⃣" = .ok "🍉/*️⃣" := by
    rw [compile, hsource]
    decide +kernel
  have hpair : [some '/', some '*'] <:+: outside "🍉/*️⃣" :=
    ⟨[some '🍉'], [some Pictograph.selector, some Pictograph.keycap], by decide +kernel⟩
  exact ⟨program, hsource, ⟨"*️⃣", by decide, by decide⟩, hscript, hpair⟩

end Punctuation

end Pictoscript
