import Pictoscript.Grammar.Statement

/-! # How phrases are written

The grammar as a relation between trees and the tokens they are written with.
`Written φ ts` says that the tokens `ts`, all of them, are one way to write the
phrase `φ`. There is no recursion bound and nothing left over in it, so facts
about trees that were read are proved by induction on it.

Nothing separates the members of a list but what the tokens themselves say.
Two members may stand side by side only if the first does not *run on* into the
second: a name would take further symbols or a `🫑`, a number further digits,
and a `🚫` a right operand.

The relation is exact: the modules `Sound` and `Complete` show that the readers
return a tree for just those tokens that write it.
-/

namespace Pictoscript

namespace Grammar

open Reading

/-! ## Both ends of a piece of text -/

/-- The first token of a list, which is `endOfInput` when there is none. -/
def nextToken : List (Located Token) → Token
  | [] => .endOfInput
  | t :: _ => t.value

def lastToken (ts : List (Located Token)) : Token :=
  (ts.map Located.value).getLast?.getD .endOfInput

@[simp] theorem nextToken_cons (t : Located Token) (ts : List (Located Token)) :
    nextToken (t :: ts) = t.value := rfl

@[simp] theorem nextToken_nil : nextToken [] = .endOfInput := rfl

theorem head_value (stop : Position) (ts : List (Located Token)) :
    (head stop ts).value = nextToken ts := by
  cases ts <;> rfl

theorem nextToken_append {ts : List (Located Token)} (h : ts ≠ [])
    (us : List (Located Token)) : nextToken (ts ++ us) = nextToken ts := by
  cases ts with
  | nil => exact absurd rfl h
  | cons t ts => rfl

@[simp] theorem lastToken_singleton (t : Located Token) : lastToken [t] = t.value := rfl

@[simp] theorem lastToken_append_singleton (ts : List (Located Token)) (t : Located Token) :
    lastToken (ts ++ [t]) = t.value := by
  simp [lastToken]

@[simp] theorem lastToken_append_cons (ts us : List (Located Token)) (t : Located Token) :
    lastToken (ts ++ t :: us) = lastToken (t :: us) := by
  simp [lastToken, List.getLast?_append, List.getLast?_cons]

@[simp] theorem lastToken_cons_append_cons (t u : Located Token)
    (ts us : List (Located Token)) : lastToken (t :: (ts ++ u :: us)) = lastToken (u :: us) :=
  lastToken_append_cons (t :: ts) us u

theorem lastToken_append {us : List (Located Token)} (h : us ≠ [])
    (ts : List (Located Token)) : lastToken (ts ++ us) = lastToken us := by
  obtain ⟨u, us, rfl⟩ := List.exists_cons_of_ne_nil h
  exact lastToken_append_cons ts us u

/-- Does a piece of text that ends in `last` take `next` as part of itself? -/
def runsOn (inGroup : Bool) (last next : Token) : Bool :=
  match last, next with
  | .symbol _, .symbol _ | .symbol _, .callStart | .digit _, .digit _ => true
  | .operator .not, t => !negatesLeft inGroup t
  | _, _ => false

/-- The tokens `ts` end where `us` begins. -/
def Apart (inGroup : Bool) (ts us : List (Located Token)) : Prop :=
  runsOn inGroup (lastToken ts) (nextToken us) = false

instance (inGroup : Bool) (ts us : List (Located Token)) : Decidable (Apart inGroup ts us) :=
  inferInstanceAs (Decidable (_ = false))

theorem runsOn_endOfInput (inGroup : Bool) (last : Token) :
    runsOn inGroup last .endOfInput = false := by
  unfold runsOn
  split <;> simp_all [negatesLeft, Token.startsOperand]

/-- Nothing runs on into the end. -/
theorem apart_nil (inGroup : Bool) (ts : List (Located Token)) : Apart inGroup ts [] :=
  runsOn_endOfInput inGroup (lastToken ts)

theorem Apart.of_append {inGroup : Bool} {ts us vs : List (Located Token)}
    (h : Apart inGroup ts (us ++ vs)) : Apart inGroup ts us := by
  cases us with
  | nil => exact apart_nil inGroup ts
  | cons u us => exact h

/-! ## Names and numbers -/

/-- One or more symbols, whose units joined are the name. -/
structure WritesName (name : Name) (ts : List (Located Token)) : Prop where
  symbols : ∃ units, units ≠ [] ∧ ts.map Located.value = units.map Token.symbol ∧
    String.join units = name.text
  start : ts.head?.map Located.position = some name.position

/-- One or more digits, which denote the number. -/
structure WritesNumber (value : Nat) (p : Position) (ts : List (Located Token)) : Prop where
  digits : ∃ values, values ≠ [] ∧ ts.map Located.value = values.map Token.digit ∧
    decimalValue values = value
  start : ts.head?.map Located.position = some p

/-- A name that is written as one unit. -/
theorem writesName_symbol (name : String) (p : Position) :
    WritesName ⟨name, p⟩ [⟨.symbol name, p⟩] :=
  ⟨⟨[name], by simp, rfl, by simp [String.join]⟩, rfl⟩

/-! ## Phrases -/

/-- A kind of phrase together with what it is read as. The flag tells whether a
group is open around the phrase. -/
inductive Phrase where
  | operand (inGroup : Bool) (n : Node)
  /-- An operand with any operators and operands behind it. -/
  | chain (inGroup : Bool) (n : Node)
  | expression (inGroup : Bool) (n : Node)
  | items (inGroup : Bool) (ns : List Node)
  | parameters (names : List Name)
  | statement (n : Node)
  | block (ns : List Node)

inductive Written : Phrase → List (Located Token) → Prop where
  | number {g : Bool} {value : Nat} {p : Position} {ts : List (Located Token)}
      (written : WritesNumber value p ts) (bounded : value ≤ numberLimit) :
      Written (.operand g (.number value p)) ts
  | text {g : Bool} (value : String) (p : Position) :
      Written (.operand g (.text value p)) [⟨.text value, p⟩]
  | boolean {g : Bool} (value : Bool) (p : Position) :
      Written (.operand g (.boolean value p)) [⟨.boolean value, p⟩]
  | reference {g : Bool} {name : Name} {ts : List (Located Token)}
      (written : WritesName name ts) :
      Written (.operand g (.variable name.text name.position)) ts
  | array {g : Bool} {elements : List Node} {ts : List (Located Token)} (p q : Position)
      (written : Written (.items g elements) ts) :
      Written (.operand g (.array elements p)) (⟨.arrayStart, p⟩ :: (ts ++ [⟨.arrayEnd, q⟩]))
  /-- A call that begins with its name. -/
  | namedCall {g : Bool} {name : Name} {arguments : List Node}
      {ns ts : List (Located Token)} (q r : Position) (named : WritesName name ns)
      (written : Written (.items g arguments) ts) :
      Written (.operand g (.call name arguments name.position))
        (ns ++ ⟨.callStart, q⟩ :: (ts ++ [⟨.callEnd, r⟩]))
  /-- A call that begins with `🫑`. -/
  | markedCall {g : Bool} {name : Name} {arguments : List Node}
      {ns ts : List (Located Token)} (p q r : Position) (named : WritesName name ns)
      (written : Written (.items g arguments) ts) :
      Written (.operand g (.call name arguments p))
        (⟨.callStart, p⟩ :: (ns ++ ⟨.arrow, q⟩ :: (ts ++ [⟨.callEnd, r⟩])))
  | group {g : Bool} {n : Node} {ts : List (Located Token)} (p q : Position)
      (written : Written (.expression true n) ts) :
      Written (.operand g (.expression (.group n) p))
        (⟨.barrier, p⟩ :: (ts ++ [⟨.barrier, q⟩]))
  | first {g : Bool} {n : Node} {ts : List (Located Token)}
      (written : Written (.operand g n) ts) : Written (.chain g n) ts
  /-- Two operands and an operator; `🚫` is one if it runs on into the second. -/
  | joined {g : Bool} {left right : Node} {op : Operator} {ts us : List (Located Token)}
      (p : Position) (leftWritten : Written (.chain g left) ts)
      (rightWritten : Written (.operand g right) us)
      (takesRight : op = .not → runsOn g (.operator .not) (nextToken us) = true) :
      Written (.chain g (.expression ⟨left, some op, some right, false, p⟩ p))
        (ts ++ ⟨.operator op, p⟩ :: us)
  | negated {g : Bool} {left : Node} {ts : List (Located Token)} (p : Position)
      (written : Written (.chain g left) ts) :
      Written (.chain g (.expression ⟨left, some .not, none, false, p⟩ p))
        (ts ++ [⟨.operator .not, p⟩])
  | index {g : Bool} {offset : Nat} {ts : List (Located Token)} {q : Position} (p : Position)
      (written : WritesNumber offset q ts) (bounded : offset ≤ offsetLimit) :
      Written (.expression g (.index offset p)) (⟨.index, p⟩ :: ts)
  | ofChain {g : Bool} {n : Node} {ts : List (Located Token)}
      (written : Written (.chain g n) ts) : Written (.expression g n) ts
  | noItems {g : Bool} : Written (.items g []) []
  | comma {g : Bool} {ns : List Node} {ts : List (Located Token)} (p : Position)
      (written : Written (.items g ns) ts) : Written (.items g ns) (⟨.comma, p⟩ :: ts)
  | item {g : Bool} {n : Node} {ns : List Node} {ts us : List (Located Token)}
      (written : Written (.expression g n) ts) (more : Written (.items g ns) us)
      (apart : Apart g ts us) : Written (.items g (n :: ns)) (ts ++ us)
  | noParameters : Written (.parameters []) []
  | parameter {name : Name} {names : List Name} {ts us : List (Located Token)} (p : Position)
      (named : WritesName name ts) (more : Written (.parameters names) us) :
      Written (.parameters (name :: names)) (⟨.comma, p⟩ :: (ts ++ us))
  | declaration {name : Name} {value : Node} {ns ts : List (Located Token)} (p q : Position)
      (named : WritesName name ns) (written : Written (.expression false value) ts) :
      Written (.statement (.declaration name value p))
        (⟨.declare, p⟩ :: (ns ++ ⟨.arrow, q⟩ :: ts))
  | assignment {name : Name} {value : Node} {ns ts : List (Located Token)} (p q : Position)
      (named : WritesName name ns) (written : Written (.expression false value) ts) :
      Written (.statement (.assignment name value p))
        (⟨.assign, p⟩ :: (ns ++ ⟨.arrow, q⟩ :: ts))
  | branch {condition : Node} {consequent : List Node} {cs ts : List (Located Token)}
      (p q r : Position) (tested : Written (.expression false condition) cs)
      (written : Written (.block consequent) ts) :
      Written (.statement (.branch (.ofNode condition) consequent none p))
        (⟨.branch, p⟩ :: (cs ++ ⟨.arrow, q⟩ :: (ts ++ [⟨.stop, r⟩])))
  | branchElse {condition : Node} {consequent alternative : List Node}
      {cs ts us : List (Located Token)} (p q r s : Position)
      (tested : Written (.expression false condition) cs)
      (written : Written (.block consequent) ts)
      (otherwise : Written (.block alternative) us) :
      Written (.statement (.branch (.ofNode condition) consequent (some alternative) p))
        (⟨.branch, p⟩ :: (cs ++ ⟨.arrow, q⟩ :: (ts ++ ⟨.otherwise, r⟩ :: (us ++ [⟨.stop, s⟩]))))
  | loop {condition : Node} {body : List Node} {cs ts : List (Located Token)}
      (p q r : Position) (tested : Written (.expression false condition) cs)
      (written : Written (.block body) ts) :
      Written (.statement (.loop (.ofNode condition) body p))
        (⟨.loop, p⟩ :: (cs ++ ⟨.arrow, q⟩ :: (ts ++ [⟨.stop, r⟩])))
  | definition {name : Name} {parameters : List Name} {body : List Node}
      {ns ps ts : List (Located Token)} (p q r : Position) (named : WritesName name ns)
      (listed : Written (.parameters parameters) ps) (written : Written (.block body) ts) :
      Written (.statement (.definition name parameters body p))
        (⟨.define, p⟩ :: (ns ++ (ps ++ ⟨.arrow, q⟩ :: (ts ++ [⟨.stop, r⟩]))))
  | print {value : Node} {ts : List (Located Token)} (p : Position)
      (written : Written (.expression false value) ts) :
      Written (.statement (.print value p)) (⟨.print, p⟩ :: ts)
  /-- A call that begins with `🫑` is a statement without operators behind it. -/
  | marked {n : Node} {ts : List (Located Token)} (begins : nextToken ts = .callStart)
      (written : Written (.operand false n) ts) : Written (.statement n) ts
  | plain {n : Node} {ts : List (Located Token)} (begins : nextToken ts ≠ .callStart)
      (written : Written (.expression false n) ts) : Written (.statement n) ts
  | noStatements : Written (.block []) []
  | statement {n : Node} {ns : List Node} {ts us : List (Located Token)}
      (written : Written (.statement n) ts) (more : Written (.block ns) us)
      (apart : Apart false ts us) : Written (.block (n :: ns)) (ts ++ us)

/-! ## How phrases begin -/

def beginsOperand (t : Token) : Bool := t.startsOperand || t == .callStart

def beginsExpression (t : Token) : Bool := beginsOperand t || t == .index

def beginsStatement (t : Token) : Bool :=
  beginsExpression t || t == .declare || t == .assign || t == .branch || t == .loop ||
    t == .define || t == .print

/-- What the first token of a phrase may be. A list may be empty. -/
def Phrase.Begins : Phrase → Token → Prop
  | .operand .., t | .chain .., t => beginsOperand t = true
  | .expression .., t => beginsExpression t = true
  | .items .., t => t = .endOfInput ∨ t = .comma ∨ beginsExpression t = true
  | .parameters _, t => t = .endOfInput ∨ t = .comma
  | .statement _, t => beginsStatement t = true
  | .block _, t => t = .endOfInput ∨ beginsStatement t = true

theorem beginsExpression_of_operand {t : Token} (h : beginsOperand t = true) :
    beginsExpression t = true := by
  simp [beginsExpression, h]

theorem beginsStatement_of_expression {t : Token} (h : beginsExpression t = true) :
    beginsStatement t = true := by
  simp [beginsStatement, h]

theorem ne_nil_of_beginsStatement {ts : List (Located Token)}
    (h : beginsStatement (nextToken ts) = true) : ts ≠ [] := by
  rintro rfl
  exact absurd h (by decide)

theorem ne_nil_of_beginsOperand {ts : List (Located Token)}
    (h : beginsOperand (nextToken ts) = true) : ts ≠ [] :=
  ne_nil_of_beginsStatement (beginsStatement_of_expression (beginsExpression_of_operand h))

/-- A run of tokens of one kind has its first one in front. -/
theorem exists_cons_of_map {α : Type} {f : α → Token} {xs : List α} {ts : List (Located Token)}
    {p : Position} (hne : xs ≠ []) (hmap : ts.map Located.value = xs.map f)
    (hstart : ts.head?.map Located.position = some p) : ∃ x us, ts = ⟨f x, p⟩ :: us := by
  obtain ⟨x, xs, rfl⟩ := List.exists_cons_of_ne_nil hne
  cases ts with
  | nil => simp at hmap
  | cons t ts =>
      obtain ⟨value, q⟩ := t
      simp only [List.map_cons, List.cons.injEq, List.head?_cons, Option.map_some,
        Option.some.injEq] at hmap hstart
      exact ⟨x, ts, by rw [hmap.1, hstart]⟩

theorem WritesName.cons {name : Name} {ts : List (Located Token)} (h : WritesName name ts) :
    ∃ unit us, ts = ⟨.symbol unit, name.position⟩ :: us := by
  obtain ⟨⟨units, hne, hmap, -⟩, hstart⟩ := h
  exact exists_cons_of_map hne hmap hstart

theorem WritesNumber.cons {value : Nat} {p : Position} {ts : List (Located Token)}
    (h : WritesNumber value p ts) : ∃ digit us, ts = ⟨.digit digit, p⟩ :: us := by
  obtain ⟨⟨values, hne, hmap, -⟩, hstart⟩ := h
  exact exists_cons_of_map hne hmap hstart

/-- A phrase begins with one of the tokens of its kind. -/
theorem Written.begins {φ : Phrase} {ts : List (Located Token)} (h : Written φ ts) :
    φ.Begins (nextToken ts) := by
  induction h with
  | number written _ =>
      obtain ⟨digit, us, rfl⟩ := written.cons
      rfl
  | reference written =>
      obtain ⟨unit, us, rfl⟩ := written.cons
      rfl
  | namedCall q r named _ _ =>
      obtain ⟨unit, us, rfl⟩ := named.cons
      rfl
  | first _ ih => exact ih
  | joined p _ _ _ ih _ =>
      rw [Phrase.Begins, nextToken_append (ne_nil_of_beginsOperand ih)]
      exact ih
  | negated p _ ih =>
      rw [Phrase.Begins, nextToken_append (ne_nil_of_beginsOperand ih)]
      exact ih
  | ofChain _ ih => exact beginsExpression_of_operand ih
  | noItems => exact Or.inl rfl
  | comma p _ _ => exact Or.inr (Or.inl rfl)
  | item _ _ _ ih _ =>
      rw [Phrase.Begins, nextToken_append
        (ne_nil_of_beginsStatement (beginsStatement_of_expression ih))]
      exact Or.inr (Or.inr ih)
  | noParameters => exact Or.inl rfl
  | parameter p _ _ _ => exact Or.inr rfl
  | marked begins _ _ => rw [Phrase.Begins, begins]; rfl
  | plain _ _ ih => exact beginsStatement_of_expression ih
  | noStatements => exact Or.inl rfl
  | statement _ _ _ ih _ =>
      rw [Phrase.Begins, nextToken_append (ne_nil_of_beginsStatement ih)]
      exact Or.inr ih
  | _ => rfl

theorem Written.operand_ne_nil {g : Bool} {n : Node} {ts : List (Located Token)}
    (h : Written (.operand g n) ts) : ts ≠ [] :=
  ne_nil_of_beginsOperand h.begins

theorem Written.expression_ne_nil {g : Bool} {n : Node} {ts : List (Located Token)}
    (h : Written (.expression g n) ts) : ts ≠ [] :=
  ne_nil_of_beginsStatement (beginsStatement_of_expression h.begins)

/-! ## How phrases end -/

theorem lastToken_of_map {α : Type} {f : α → Token} {xs : List α} {ts : List (Located Token)}
    (hne : xs ≠ []) (h : ts.map Located.value = xs.map f) : ∃ x, lastToken ts = f x := by
  refine ⟨xs.getLast hne, ?_⟩
  rw [lastToken, h, List.getLast?_map, List.getLast?_eq_some_getLast hne]
  rfl

/-- A name ends before anything but a symbol and a `🫑`. -/
theorem WritesName.apart_iff {name : Name} {ts us : List (Located Token)} {g : Bool}
    (h : WritesName name ts) :
    Apart g ts us ↔ (∀ unit, nextToken us ≠ .symbol unit) ∧ nextToken us ≠ .callStart := by
  obtain ⟨⟨units, hne, hmap, -⟩, -⟩ := h
  obtain ⟨unit, hlast⟩ := lastToken_of_map hne hmap
  rw [Apart, hlast]
  unfold runsOn
  split <;> simp_all

/-- A number ends before anything but a digit. -/
theorem WritesNumber.apart_iff {value : Nat} {p : Position} {ts us : List (Located Token)}
    {g : Bool} (h : WritesNumber value p ts) :
    Apart g ts us ↔ ∀ digit, nextToken us ≠ .digit digit := by
  obtain ⟨⟨values, hne, hmap, -⟩, -⟩ := h
  obtain ⟨digit, hlast⟩ := lastToken_of_map hne hmap
  rw [Apart, hlast]
  unfold runsOn
  split <;> simp_all

/-- A piece of text that ends in a closing token does not run on. -/
theorem apart_of_lastToken {g : Bool} {ts us : List (Located Token)} (last : Token)
    (h : lastToken ts = last) (hlast : ∀ next, runsOn g last next = false) : Apart g ts us := by
  rw [Apart, h]
  exact hlast _

/-- Text runs on only into what begins an operand. -/
theorem runsOn_of_not_beginsOperand {t : Token} (h : beginsOperand t = false) (g : Bool)
    (last : Token) : runsOn g last t = false := by
  unfold runsOn
  split <;> simp_all [beginsOperand, Token.startsOperand, negatesLeft]

theorem Apart.append {g : Bool} {ts us vs : List (Located Token)} (h : Apart g ts us)
    (hvs : beginsOperand (nextToken vs) = false) : Apart g ts (us ++ vs) := by
  cases us with
  | nil => exact runsOn_of_not_beginsOperand hvs g (lastToken ts)
  | cons u us => exact h

/-- Inside a group everything ends before a barrier. -/
theorem apart_barrier (ts us : List (Located Token)) (p : Position) :
    Apart true ts (⟨.barrier, p⟩ :: us) := by
  rw [Apart, nextToken_cons]
  unfold runsOn
  split <;> simp_all [negatesLeft]

end Grammar

end Pictoscript
