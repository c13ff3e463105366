import Pictoscript.Proofs.Grammar.Printing

/-! # Reading printed trees

A canonical program is read back from its print, up to positions. Two facts are
proved along the tree: the printed tokens can be spelled, so that they are cut
from the printed text again; and located tokens with these values write a tree
that differs at most in its positions.
-/

namespace Pictoscript

open Reading Grammar

namespace Canonical

/-! ## Printed tokens can be spelled -/

theorem spellable_of_word {t : Token} (h : ∃ w ∈ vocabulary, w.token = t ∧ w.token ≠ .quote) :
    t.Spellable := by
  obtain ⟨w, hw, rfl, hquote⟩ := h
  exact .word hw hquote

theorem spellable_name {name : String} (h : isName name = true) :
    (Token.symbol name).Spellable := by
  rw [isName, Bool.and_eq_true, Option.isNone_iff_eq_none] at h
  exact .symbol h.1 h.2

theorem spellable_text {value : String} (h : isText value = true) :
    (Token.text value).Spellable := by
  by_cases hempty : value = ""
  · rw [hempty]
    exact .empty
  · simp only [isText, Bool.or_eq_true, beq_iff_eq, hempty, false_or, Bool.and_eq_true,
      List.all_eq_true, Bool.not_eq_true'] at h
    exact .text ⟨by simpa using hempty, h.1⟩ h.2

theorem spellable_digit {d : Nat} (h : d < 10) : (Token.digit d).Spellable := by
  apply spellable_of_word
  revert d
  decide

theorem spellable_operator (op : Operator) : (Token.operator op).Spellable := by
  apply spellable_of_word
  cases op <;> decide

theorem spellable_boolean (value : Bool) : (Token.boolean value).Spellable := by
  apply spellable_of_word
  cases value <;> decide

theorem spellable_digits (n : Nat) : ∀ t ∈ Printing.digits n, t.Spellable := by
  intro t ht
  obtain ⟨d, hd, rfl⟩ := List.mem_map.mp ht
  exact spellable_digit (decimalDigits_lt_ten hd)

/-- The tokens that are the same in every tree. -/
def isDelimiter : Token → Bool
  | .barrier | .arrayStart | .arrayEnd | .comma | .callStart | .callEnd | .index | .arrow
  | .declare | .assign | .branch | .otherwise | .stop | .loop | .define | .print => true
  | _ => false

theorem spellable_delimiter {t : Token} (h : isDelimiter t = true) : t.Spellable := by
  apply spellable_of_word
  cases t <;> first | decide | cases h

theorem spellable_enclose {grouped : Bool} {ts : List Token} (h : ∀ t ∈ ts, t.Spellable) :
    ∀ t ∈ Printing.enclose grouped ts, t.Spellable := by
  have hbarrier : Token.barrier.Spellable := spellable_delimiter rfl
  cases grouped with
  | false => exact h
  | true =>
      intro t ht
      simp only [Printing.enclose, if_true, List.mem_cons, List.mem_append, List.not_mem_nil,
        or_false] at ht
      rcases ht with rfl | ht | rfl
      · exact hbarrier
      · exact h t ht
      · exact hbarrier

theorem spellable_parameters {names : List Name} (h : names.all (isName ·.text) = true) :
    ∀ t ∈ Printing.parameters names, t.Spellable := by
  intro t ht
  obtain ⟨name, hname, ht⟩ := List.mem_flatMap.mp ht
  simp only [List.mem_cons, List.not_mem_nil, or_false] at ht
  rcases ht with rfl | rfl
  · exact spellable_delimiter rfl
  · exact spellable_name (List.all_eq_true.mp h name hname)

mutual
theorem spellable_node : ∀ (n : Node) (place : Place), shape.node place n = true →
    ∀ t ∈ Printing.node n, t.Spellable
  | .number value _, _, _ => spellable_digits value.toNat
  | .text value _, _, h => by
      simpa [Printing.node] using spellable_text h
  | .boolean value _, _, _ => by
      simpa [Printing.node] using spellable_boolean value
  | .variable name _, _, h => by
      simpa [Printing.node] using spellable_name h
  | .array elements _, _, h => by
      have hitems := spellable_items elements h
      simp only [Printing.node, List.forall_mem_cons, List.forall_mem_append]
      exact ⟨spellable_delimiter rfl, hitems, spellable_delimiter rfl, by simp⟩
  | .expression content _, place, h => by
      simp only [Shape.node, Bool.and_eq_true] at h
      exact spellable_expression content h.2
  | .declaration name value _, _, h => by
      simp only [Shape.node, Bool.and_eq_true] at h
      simp only [Printing.node, List.forall_mem_cons]
      exact ⟨spellable_delimiter rfl, spellable_name h.1.2, spellable_delimiter rfl,
        spellable_node value _ h.2⟩
  | .assignment target value _, _, h => by
      simp only [Shape.node, Bool.and_eq_true] at h
      simp only [Printing.node, List.forall_mem_cons]
      exact ⟨spellable_delimiter rfl, spellable_name h.1.2, spellable_delimiter rfl,
        spellable_node value _ h.2⟩
  | .branch condition consequent none _, _, h => by
      simp only [Shape.node, Bool.and_eq_true] at h
      simp only [Printing.node, List.forall_mem_cons, List.forall_mem_append]
      exact ⟨spellable_delimiter rfl, spellable_expression condition h.1.2,
        spellable_delimiter rfl, spellable_block consequent h.2,
        spellable_delimiter rfl, by simp⟩
  | .branch condition consequent (some alternative) _, _, h => by
      simp only [Shape.node, Bool.and_eq_true] at h
      simp only [Printing.node, List.forall_mem_cons, List.forall_mem_append]
      exact ⟨spellable_delimiter rfl, spellable_expression condition h.1.1.2,
        spellable_delimiter rfl, spellable_block consequent h.1.2,
        spellable_delimiter rfl, spellable_block alternative h.2,
        spellable_delimiter rfl, by simp⟩
  | .loop condition body _, _, h => by
      simp only [Shape.node, Bool.and_eq_true] at h
      simp only [Printing.node, List.forall_mem_cons, List.forall_mem_append]
      exact ⟨spellable_delimiter rfl, spellable_expression condition h.1.2,
        spellable_delimiter rfl, spellable_block body h.2,
        spellable_delimiter rfl, by simp⟩
  | .definition name names body _, _, h => by
      simp only [Shape.node, Bool.and_eq_true] at h
      simp only [Printing.node, List.forall_mem_cons, List.forall_mem_append]
      exact ⟨spellable_delimiter rfl, spellable_name h.1.1.2, spellable_parameters h.1.2,
        spellable_delimiter rfl, spellable_block body h.2,
        spellable_delimiter rfl, by simp⟩
  | .call name arguments _, _, h => by
      simp only [Shape.node, Bool.and_eq_true] at h
      simp only [Printing.node, List.forall_mem_cons, List.forall_mem_append]
      exact ⟨spellable_name h.1, spellable_delimiter rfl, spellable_items arguments h.2,
        spellable_delimiter rfl, by simp⟩
  | .index offset _, _, _ => by
      simp only [Printing.node, List.forall_mem_cons]
      exact ⟨spellable_delimiter rfl, spellable_digits offset⟩
  | .print value _, _, h => by
      simp only [Shape.node, Bool.and_eq_true] at h
      simp only [Printing.node, List.forall_mem_cons]
      exact ⟨spellable_delimiter rfl, spellable_node value _ h.2⟩
theorem spellable_expression : ∀ (e : Expression), shape.expression e = true →
    ∀ t ∈ Printing.expression e, t.Spellable
  | ⟨left, none, none, _, _⟩, h => by
      apply spellable_enclose
      simpa [Printing.operator] using spellable_node left .wrapped h
  | ⟨left, some .not, none, _, _⟩, h => by
      apply spellable_enclose
      simp only [Printing.operator, List.forall_mem_append, List.forall_mem_singleton]
      exact ⟨spellable_node left .left h, spellable_operator .not⟩
  | ⟨left, some op, some right, _, _⟩, h => by
      rw [Shape.expression_joined, Bool.and_eq_true, Bool.and_eq_true] at h
      apply spellable_enclose
      simp only [Printing.operator, List.forall_mem_append, List.forall_mem_singleton]
      exact ⟨spellable_node left .left h.1.2, spellable_operator op,
        spellable_node right .right h.2⟩
theorem spellable_items : ∀ (ns : List Node), shape.items ns = true →
    ∀ t ∈ Printing.items ns, t.Spellable
  | [], _ => by simp [Printing.items]
  | [n], h => by
      simp only [Shape.items, Bool.and_eq_true] at h
      exact spellable_node n .whole h.1
  | n :: m :: ns, h => by
      rw [Shape.items, Bool.and_eq_true] at h
      simp only [Printing.items, List.forall_mem_append, List.forall_mem_cons]
      exact ⟨spellable_node n .whole h.1, spellable_delimiter rfl,
        spellable_items (m :: ns) h.2⟩
theorem spellable_block : ∀ (ns : List Node), shape.block ns = true →
    ∀ t ∈ Printing.block ns, t.Spellable
  | [], _ => by simp [Printing.block]
  | n :: ns, h => by
      simp only [Shape.block, Bool.and_eq_true] at h
      simp only [Printing.block, List.forall_mem_append]
      exact ⟨spellable_node n .statement h.1.1, spellable_block ns h.2⟩
end

/-! ## Printed tokens write the tree

The tokens are given with positions of their own, and these are the positions
of the tree that they write. -/

def phrase (place : Place) (g : Bool) (n : Node) : Phrase :=
  match place with
  | .right => .operand g n
  | .left => .chain g n
  | .wrapped | .whole => .expression g n
  | .statement => .statement n

/-- The tokens write the node in its place up to positions, whether a group is
open around it or not. -/
def Restores (place : Place) (n : Node) (ts : List (Located Token)) : Prop :=
  ∃ m : Node, m.erase = n.erase ∧ nextToken ts ≠ .callStart ∧
    ∀ g, Written (phrase place g m) ts

def RestoresItems (ns : List Node) (ts : List (Located Token)) : Prop :=
  ∃ ms : List Node, eraseNodes ms = eraseNodes ns ∧ ∀ g, Written (.items g ms) ts

def RestoresBlock (ns : List Node) (ts : List (Located Token)) : Prop :=
  ∃ ms : List Node, eraseNodes ms = eraseNodes ns ∧ Written (.block ms) ts

variable {place : Place} {ts : List (Located Token)}

theorem located_cons {t : Token} {xs : List Token} (h : ts.map Located.value = t :: xs) :
    ∃ p us, ts = ⟨t, p⟩ :: us ∧ us.map Located.value = xs := by
  obtain ⟨⟨_, p⟩, us, rfl, rfl, hus⟩ := List.map_eq_cons_iff.mp h
  exact ⟨p, us, rfl, hus⟩

theorem located_append_cons {t : Token} {xs ys : List Token}
    (h : ts.map Located.value = xs ++ t :: ys) :
    ∃ us p vs, ts = us ++ ⟨t, p⟩ :: vs ∧ us.map Located.value = xs ∧
      vs.map Located.value = ys := by
  obtain ⟨us, vs, rfl, hus, htail⟩ := List.map_eq_append_iff.mp h
  obtain ⟨p, vs, rfl, hvs⟩ := located_cons htail
  exact ⟨us, p, vs, rfl, hus, hvs⟩

theorem located_append_singleton {t : Token} {xs : List Token}
    (h : ts.map Located.value = xs ++ [t]) :
    ∃ us p, ts = us ++ [⟨t, p⟩] ∧ us.map Located.value = xs := by
  obtain ⟨us, p, vs, rfl, hus, hvs⟩ := located_append_cons h
  exact ⟨us, p, by rw [List.map_eq_nil_iff.mp hvs], hus⟩

/-- An operand may stand in any place. -/
theorem restores_of_operand {m n : Node} (herase : m.erase = n.erase)
    (hcall : nextToken ts ≠ .callStart) (h : ∀ g, Written (.operand g m) ts) :
    Restores place n ts := by
  refine ⟨m, herase, hcall, fun g => ?_⟩
  cases place with
  | right => exact h g
  | left => exact .first (h g)
  | wrapped => exact .ofChain (.first (h g))
  | whole => exact .ofChain (.first (h g))
  | statement => exact .plain hcall (.ofChain (.first (h false)))

theorem restores_of_chain {m n : Node} (hbare : place.admitsBare = true)
    (herase : m.erase = n.erase) (hcall : nextToken ts ≠ .callStart)
    (h : ∀ g, Written (.chain g m) ts) : Restores place n ts := by
  refine ⟨m, herase, hcall, fun g => ?_⟩
  cases place with
  | right => cases hbare
  | left => exact h g
  | wrapped => cases hbare
  | whole => exact .ofChain (h g)
  | statement => exact .plain hcall (.ofChain (h false))

theorem restores_of_statement {m n : Node} (herase : m.erase = n.erase)
    (hcall : nextToken ts ≠ .callStart) (h : Written (.statement m) ts) :
    Restores .statement n ts := ⟨m, herase, hcall, fun _ => h⟩

theorem writesNumber_digits {value : Nat} (h : ts.map Located.value = Printing.digits value) :
    ∃ p, WritesNumber value p ts := by
  cases ts with
  | nil => exact absurd h.symm (by simpa [Printing.digits] using decimalDigits_ne_nil value)
  | cons t ts =>
      exact ⟨t.position, ⟨decimalDigits value, decimalDigits_ne_nil value, h,
        decimalValue_decimalDigits value⟩, rfl⟩

theorem restores_number {value : Int} {q : Position} (hcanonical : 0 ≤ value ∧ value ≤ numberLimit)
    (h : ts.map Located.value = Printing.digits value.toNat) :
    Restores place (.number value q) ts := by
  obtain ⟨p, hwrites⟩ := writesNumber_digits h
  obtain ⟨digit, us, hts⟩ := hwrites.cons
  have hvalue : (value.toNat : Int) = value := Int.toNat_of_nonneg hcanonical.1
  apply restores_of_operand (m := .number value.toNat p)
  · rw [hvalue]
    rfl
  · rw [hts]
    simp
  · intro g
    exact .number hwrites (by omega)

theorem restores_index {offset : Nat} {q : Position} (hplace : place.admitsIndex = true)
    (hbound : offset ≤ offsetLimit)
    (h : ts.map Located.value = .index :: Printing.digits offset) :
    Restores place (.index offset q) ts := by
  obtain ⟨p, ds, rfl, hds⟩ := located_cons h
  obtain ⟨_, hwrites⟩ := writesNumber_digits hds
  have hindex : ∀ g, Written (.expression g (.index offset p)) (⟨.index, p⟩ :: ds) :=
    fun g => .index p hwrites hbound
  refine ⟨.index offset p, rfl, by simp, fun g => ?_⟩
  cases place with
  | right => cases hplace
  | left => cases hplace
  | wrapped => exact hindex g
  | whole => exact hindex g
  | statement => exact .plain (by simp) (hindex false)

theorem restores_array {elements : List Node} {q : Position}
    (ih : ∀ us, us.map Located.value = Printing.items elements → RestoresItems elements us)
    (h : ts.map Located.value = .arrayStart :: (Printing.items elements ++ [.arrayEnd])) :
    Restores place (.array elements q) ts := by
  obtain ⟨p, _, rfl, htail⟩ := located_cons h
  obtain ⟨us, r, rfl, hus⟩ := located_append_singleton htail
  obtain ⟨ms, herase, hwritten⟩ := ih us hus
  apply restores_of_operand (m := .array ms p)
  · rw [Node.erase, Node.erase, herase]
  · simp
  · intro g
    exact .array p r (hwritten g)

theorem restores_call {name : Name} {arguments : List Node} {q : Position}
    (ih : ∀ us, us.map Located.value = Printing.items arguments → RestoresItems arguments us)
    (h : ts.map Located.value =
      .symbol name.text :: .callStart :: (Printing.items arguments ++ [.callEnd])) :
    Restores place (.call name arguments q) ts := by
  obtain ⟨p, _, rfl, hcall⟩ := located_cons h
  obtain ⟨r, _, rfl, htail⟩ := located_cons hcall
  obtain ⟨us, s, rfl, hus⟩ := located_append_singleton htail
  obtain ⟨ms, herase, hwritten⟩ := ih us hus
  apply restores_of_operand (m := .call ⟨name.text, p⟩ ms p)
  · rw [Node.erase, Node.erase, herase]
    rfl
  · simp
  · intro g
    exact .namedCall r s (writesName_symbol name.text p) (hwritten g)

/-! ## Expressions -/

def RestoresParts (e : Expression) (ts : List (Located Token)) : Prop :=
  if e.operator.isSome then Restores .left (.expression { e with grouped := false } e.position) ts
  else Restores .wrapped e.left ts

theorem with_grouped_self {e : Expression} {g : Bool} (h : e.grouped = g) :
    { e with grouped := g } = e := by
  cases h
  cases e
  rfl

theorem right_of_no_operator {e : Expression} (h : shape.expression e = true)
    (hop : ¬ e.operator.isSome) : e.right = none := by
  obtain ⟨left, op, right, grouped, p⟩ := e
  cases op with
  | some op => exact absurd rfl hop
  | none =>
      cases right with
      | none => rfl
      | some right => cases h

/-- What is wrapped is an expression of its own, so barriers add one around it. -/
theorem group_of_wrapped {n : Node} (h : shape.node .wrapped n = true) :
    Expression.group n = { Expression.ofOperand n with grouped := true } := by
  cases n with
  | expression content p =>
      simp only [Shape.node, Place.admitsBare, Bool.and_false, Bool.or_false, Bool.and_eq_true] at h
      rw [Expression.group, if_pos h.1]
  | _ => rfl

theorem erase_eq_ofOperand {e : Expression} (h : shape.expression e = true)
    (hop : ¬ e.operator.isSome) :
    e.erase = { (Expression.ofOperand e.left).erase with grouped := e.grouped } := by
  have hright := right_of_no_operator h hop
  obtain ⟨left, op, right, grouped, p⟩ := e
  obtain rfl : op = none := by simpa using hop
  obtain rfl : right = none := hright
  rfl

/-- Barriers around the parts write the expression as one operand. -/
theorem restores_group {e : Expression} {q : Position} (p r : Position)
    (hcanonical : shape.expression e = true) (hgrouped : e.grouped = true)
    (h : RestoresParts e ts) :
    Restores place (.expression e q) (⟨.barrier, p⟩ :: (ts ++ [⟨.barrier, r⟩])) := by
  have hgroup : ∀ {m : Node}, Written (.expression true m) ts →
      (Expression.group m).erase = e.erase →
      Restores place (.expression e q) (⟨.barrier, p⟩ :: (ts ++ [⟨.barrier, r⟩])) := by
    intro m hm herase
    apply restores_of_operand (m := .expression (.group m) p)
    · rw [Node.erase, Node.erase, herase]
    · simp
    · intro g
      exact .group p r hm
  rw [RestoresParts] at h
  split at h
  · obtain ⟨m, herase, -, hm⟩ := h
    apply hgroup (.ofChain (hm true))
    rw [Expression.erase_group, herase, ← Expression.erase_group, Expression.group,
      if_neg (by simp)]
    exact congrArg Expression.erase (with_grouped_self hgrouped)
  · next hop =>
    obtain ⟨m, herase, -, hm⟩ := h
    have hleft : shape.node .wrapped e.left = true := by
      obtain ⟨left, op, right, grouped, s⟩ := e
      obtain rfl : right = none := right_of_no_operator hcanonical hop
      obtain rfl : op = none := by simpa using hop
      exact hcanonical
    apply hgroup (hm true)
    rw [Expression.erase_group, herase, ← Expression.erase_group, group_of_wrapped hleft,
      Expression.erase_with_grouped, erase_eq_ofOperand hcanonical hop, hgrouped]

theorem printing_expression (e : Expression) : Printing.expression e =
    Printing.enclose e.grouped (Printing.expression { e with grouped := false }) := by
  obtain ⟨left, op, right, grouped, p⟩ := e
  cases right <;> rfl

/-- An expression with barriers is an operand; without them it is a chain. -/
theorem restores_expression {e : Expression} {q : Position} (hcanonical : shape.expression e = true)
    (hplace : (e.grouped || e.operator.isSome && place.admitsBare) = true)
    (ih : ∀ us, us.map Located.value = Printing.expression { e with grouped := false } →
      RestoresParts e us)
    (h : ts.map Located.value = Printing.expression e) :
    Restores place (.expression e q) ts := by
  rw [printing_expression] at h
  cases hgrouped : e.grouped with
  | true =>
      rw [hgrouped, Printing.enclose, if_pos rfl] at h
      obtain ⟨p, _, rfl, htail⟩ := located_cons h
      obtain ⟨us, r, rfl, hus⟩ := located_append_singleton htail
      exact restores_group p r hcanonical hgrouped (ih us hus)
  | false =>
      rw [hgrouped, Printing.enclose, if_neg (by simp)] at h
      simp only [hgrouped, Bool.false_or, Bool.and_eq_true] at hplace
      have hparts := ih ts h
      rw [RestoresParts, if_pos hplace.1, with_grouped_self hgrouped] at hparts
      obtain ⟨m, herase, hcall, hm⟩ := hparts
      exact restores_of_chain hplace.2 herase hcall hm

def RestoresCondition (e : Expression) (ts : List (Located Token)) : Prop :=
  ∃ m : Node, (Expression.ofNode m).erase = e.erase ∧ Written (.expression false m) ts

theorem restores_condition {e : Expression} (hcanonical : shape.expression e = true)
    (hcondition : e.isCondition = true)
    (ih : ∀ us, us.map Located.value = Printing.expression { e with grouped := false } →
      RestoresParts e us)
    (h : ts.map Located.value = Printing.expression e) : RestoresCondition e ts := by
  by_cases hexpression : (e.grouped || e.operator.isSome) = true
  · have hrestores : Restores .whole (.expression e e.position) ts :=
      restores_expression hcanonical (by simpa [Place.admitsBare] using hexpression) ih h
    obtain ⟨m, herase, -, hm⟩ := hrestores
    refine ⟨m, ?_, hm false⟩
    rw [Expression.erase_ofNode, herase]
    rfl
  · simp only [Bool.or_eq_true, not_or, Bool.not_eq_true] at hexpression
    obtain ⟨hgrouped, hop⟩ := hexpression
    rw [printing_expression, hgrouped, Printing.enclose, if_neg (by simp)] at h
    have hparts := ih ts h
    rw [RestoresParts, if_neg (by simp [hop])] at hparts
    obtain ⟨m, herase, -, hm⟩ := hparts
    refine ⟨m, ?_, hm false⟩
    rw [Expression.isCondition, hgrouped, hop, Bool.false_or, Bool.false_or,
      Bool.not_eq_true'] at hcondition
    have hleft : Expression.ofNode e.left = Expression.ofOperand e.left := by
      cases hnode : e.left with
      | expression content p => rw [hnode] at hcondition; cases hcondition
      | _ => rfl
    rw [Expression.erase_ofNode, herase, ← Expression.erase_ofNode, hleft,
      erase_eq_ofOperand hcanonical (by simp [hop]), hgrouped]
    rfl

theorem nextToken_append_cons_ne {us vs : List (Located Token)} {t : Located Token}
    {u : Token} (hus : nextToken us ≠ u) (ht : t.value ≠ u) :
    nextToken (us ++ t :: vs) ≠ u := by
  cases us with
  | nil => exact ht
  | cons _ _ => exact hus

theorem restores_negation {left : Node} {grouped : Bool} {q : Position}
    (ih : ∀ us, us.map Located.value = Printing.node left → Restores .left left us)
    (h : ts.map Located.value = Printing.node left ++ [.operator .not]) :
    RestoresParts ⟨left, some .not, none, grouped, q⟩ ts := by
  obtain ⟨us, p, rfl, hus⟩ := located_append_singleton h
  obtain ⟨m, herase, hcall, hm⟩ := ih us hus
  apply restores_of_chain (m := .expression ⟨m, some .not, none, false, p⟩ p) rfl
  · simp only [Node.erase, Expression.erase, herase]
  · exact nextToken_append_cons_ne hcall (by simp)
  · intro g
    exact .negated p (hm g)

theorem restores_operation {left right : Node} {op : Operator} {grouped : Bool} {q : Position}
    (hop : op ≠ .not)
    (ihLeft : ∀ us, us.map Located.value = Printing.node left → Restores .left left us)
    (ihRight : ∀ us, us.map Located.value = Printing.node right → Restores .right right us)
    (h : ts.map Located.value = Printing.node left ++ .operator op :: Printing.node right) :
    RestoresParts ⟨left, some op, some right, grouped, q⟩ ts := by
  obtain ⟨us, p, vs, rfl, hus, hvs⟩ := located_append_cons h
  obtain ⟨m, herase, hcall, hm⟩ := ihLeft us hus
  obtain ⟨m', herase', -, hm'⟩ := ihRight vs hvs
  apply restores_of_chain (m := .expression ⟨m, some op, some m', false, p⟩ p) rfl
  · simp only [Node.erase, Expression.erase, herase, herase']
  · exact nextToken_append_cons_ne hcall (by simp)
  · intro g
    exact .joined p (hm g) (hm' g) fun hnot => absurd hnot hop

/-! ## Statements and lists -/

theorem written_parameters : ∀ {names : List Name} {ts : List (Located Token)},
    ts.map Located.value = Printing.parameters names →
    ∃ ms : List Name, ms.map Name.erase = names.map Name.erase ∧ Written (.parameters ms) ts
  | [], ts, h => ⟨[], rfl, by rw [List.map_eq_nil_iff.mp h]; exact .noParameters⟩
  | name :: names, ts, h => by
      obtain ⟨p, _, rfl, hname⟩ := located_cons h
      obtain ⟨q, us, rfl, hus⟩ := located_cons hname
      obtain ⟨ms, herase, hms⟩ := written_parameters hus
      refine ⟨⟨name.text, q⟩ :: ms, by rw [List.map_cons, List.map_cons, herase]; rfl, ?_⟩
      exact .parameter p (writesName_symbol name.text q) hms

theorem restores_declaration {name : Name} {value : Node} {q : Position}
    (ih : ∀ us, us.map Located.value = Printing.node value → Restores .whole value us)
    (h : ts.map Located.value =
      .declare :: .symbol name.text :: .arrow :: Printing.node value) :
    Restores .statement (.declaration name value q) ts := by
  obtain ⟨p, _, rfl, hname⟩ := located_cons h
  obtain ⟨r, _, rfl, harrow⟩ := located_cons hname
  obtain ⟨s, us, rfl, hus⟩ := located_cons harrow
  obtain ⟨m, herase, -, hm⟩ := ih us hus
  apply restores_of_statement (m := .declaration ⟨name.text, r⟩ m p)
  · simp only [Node.erase, Name.erase, herase]
  · simp
  · exact .declaration p s (writesName_symbol name.text r) (hm false)

theorem restores_assignment {target : Name} {value : Node} {q : Position}
    (ih : ∀ us, us.map Located.value = Printing.node value → Restores .whole value us)
    (h : ts.map Located.value =
      .assign :: .symbol target.text :: .arrow :: Printing.node value) :
    Restores .statement (.assignment target value q) ts := by
  obtain ⟨p, _, rfl, hname⟩ := located_cons h
  obtain ⟨r, _, rfl, harrow⟩ := located_cons hname
  obtain ⟨s, us, rfl, hus⟩ := located_cons harrow
  obtain ⟨m, herase, -, hm⟩ := ih us hus
  apply restores_of_statement (m := .assignment ⟨target.text, r⟩ m p)
  · simp only [Node.erase, Name.erase, herase]
  · simp
  · exact .assignment p s (writesName_symbol target.text r) (hm false)

theorem restores_branch {condition : Expression} {consequent : List Node} {q : Position}
    (ihTest : ∀ us, us.map Located.value = Printing.expression condition →
      RestoresCondition condition us)
    (ih : ∀ us, us.map Located.value = Printing.block consequent → RestoresBlock consequent us)
    (h : ts.map Located.value = .branch :: (Printing.expression condition ++
      .arrow :: (Printing.block consequent ++ [.stop]))) :
    Restores .statement (.branch condition consequent none q) ts := by
  obtain ⟨p, _, rfl, htest⟩ := located_cons h
  obtain ⟨cs, r, _, rfl, hcs, hblock⟩ := located_append_cons htest
  obtain ⟨us, s, rfl, hus⟩ := located_append_singleton hblock
  obtain ⟨c, hc, hcs⟩ := ihTest cs hcs
  obtain ⟨ms, hms, hus⟩ := ih us hus
  apply restores_of_statement (m := .branch (.ofNode c) ms none p)
  · simp only [Node.erase, hc, hms]
  · simp
  · exact .branch p r s hcs hus

theorem restores_branchElse {condition : Expression} {consequent alternative : List Node}
    {q : Position}
    (ihTest : ∀ us, us.map Located.value = Printing.expression condition →
      RestoresCondition condition us)
    (ih : ∀ us, us.map Located.value = Printing.block consequent → RestoresBlock consequent us)
    (ihElse : ∀ us, us.map Located.value = Printing.block alternative →
      RestoresBlock alternative us)
    (h : ts.map Located.value = .branch :: (Printing.expression condition ++
      .arrow :: (Printing.block consequent ++
        .otherwise :: (Printing.block alternative ++ [.stop])))) :
    Restores .statement (.branch condition consequent (some alternative) q) ts := by
  obtain ⟨p, _, rfl, htest⟩ := located_cons h
  obtain ⟨cs, r, _, rfl, hcs, hblock⟩ := located_append_cons htest
  obtain ⟨us, s, _, rfl, hus, helse⟩ := located_append_cons hblock
  obtain ⟨vs, t, rfl, hvs⟩ := located_append_singleton helse
  obtain ⟨c, hc, hcs⟩ := ihTest cs hcs
  obtain ⟨ms, hms, hus⟩ := ih us hus
  obtain ⟨ms', hms', hvs⟩ := ihElse vs hvs
  apply restores_of_statement (m := .branch (.ofNode c) ms (some ms') p)
  · simp only [Node.erase, hc, hms, hms']
  · simp
  · exact .branchElse p r s t hcs hus hvs

theorem restores_loop {condition : Expression} {body : List Node} {q : Position}
    (ihTest : ∀ us, us.map Located.value = Printing.expression condition →
      RestoresCondition condition us)
    (ih : ∀ us, us.map Located.value = Printing.block body → RestoresBlock body us)
    (h : ts.map Located.value = .loop :: (Printing.expression condition ++
      .arrow :: (Printing.block body ++ [.stop]))) :
    Restores .statement (.loop condition body q) ts := by
  obtain ⟨p, _, rfl, htest⟩ := located_cons h
  obtain ⟨cs, r, _, rfl, hcs, hblock⟩ := located_append_cons htest
  obtain ⟨us, s, rfl, hus⟩ := located_append_singleton hblock
  obtain ⟨c, hc, hcs⟩ := ihTest cs hcs
  obtain ⟨ms, hms, hus⟩ := ih us hus
  apply restores_of_statement (m := .loop (.ofNode c) ms p)
  · simp only [Node.erase, hc, hms]
  · simp
  · exact .loop p r s hcs hus

theorem restores_definition {name : Name} {parameters : List Name} {body : List Node}
    {q : Position}
    (ih : ∀ us, us.map Located.value = Printing.block body → RestoresBlock body us)
    (h : ts.map Located.value = .define :: .symbol name.text ::
      (Printing.parameters parameters ++ .arrow :: (Printing.block body ++ [.stop]))) :
    Restores .statement (.definition name parameters body q) ts := by
  obtain ⟨p, _, rfl, hname⟩ := located_cons h
  obtain ⟨r, _, rfl, hparameters⟩ := located_cons hname
  obtain ⟨ps, s, _, rfl, hps, hblock⟩ := located_append_cons hparameters
  obtain ⟨us, t, rfl, hus⟩ := located_append_singleton hblock
  obtain ⟨names, hnames, hps⟩ := written_parameters hps
  obtain ⟨ms, hms, hus⟩ := ih us hus
  apply restores_of_statement (m := .definition ⟨name.text, r⟩ names ms p)
  · simp only [Node.erase, Name.erase, hnames, hms]
  · simp
  · exact .definition p s t (writesName_symbol name.text r) hps hus

theorem restores_print {value : Node} {q : Position}
    (ih : ∀ us, us.map Located.value = Printing.node value → Restores .whole value us)
    (h : ts.map Located.value = .print :: Printing.node value) :
    Restores .statement (.print value q) ts := by
  obtain ⟨p, us, rfl, hus⟩ := located_cons h
  obtain ⟨m, herase, -, hm⟩ := ih us hus
  apply restores_of_statement (m := .print m p)
  · simp only [Node.erase, herase]
  · simp
  · exact .print p (hm false)

theorem apart_of_endsBefore {us : List (Located Token)}
    (h : endsBefore (ts.map Located.value) (us.map Located.value) = true) :
    Apart false ts us := by
  rw [endsBefore, Bool.not_eq_true'] at h
  cases us with
  | nil => exact apart_nil false ts
  | cons u us => exact h

mutual
theorem restores_node : ∀ (n : Node) (place : Place) (ts : List (Located Token)),
    shape.node place n = true → ts.map Located.value = Printing.node n → Restores place n ts
  | .number value _, place, ts, hn, h => by
      simp only [Shape.node, Bool.and_eq_true, decide_eq_true_eq] at hn
      exact restores_number hn h
  | .text value _, place, ts, hn, h => by
      obtain ⟨p, us, rfl, hus⟩ := located_cons h
      rw [List.map_eq_nil_iff.mp hus]
      exact restores_of_operand (m := .text value p) rfl (by simp) fun g => .text value p
  | .boolean value _, place, ts, hn, h => by
      obtain ⟨p, us, rfl, hus⟩ := located_cons h
      rw [List.map_eq_nil_iff.mp hus]
      exact restores_of_operand (m := .boolean value p) rfl (by simp) fun g => .boolean value p
  | .variable name _, place, ts, hn, h => by
      obtain ⟨p, us, rfl, hus⟩ := located_cons h
      rw [List.map_eq_nil_iff.mp hus]
      exact restores_of_operand (m := .variable name p) rfl (by simp) fun g =>
        .reference (writesName_symbol name p)
  | .array elements _, place, ts, hn, h =>
      restores_array (fun us => restores_items elements us hn) h
  | .expression content _, place, ts, hn, h => by
      simp only [Shape.node, Bool.and_eq_true] at hn
      exact restores_expression hn.2 hn.1 (fun us => restores_parts content us hn.2) h
  | .declaration name value _, place, ts, hn, h => by
      simp only [Shape.node, Bool.and_eq_true, beq_iff_eq] at hn
      obtain ⟨⟨rfl, -⟩, hvalue⟩ := hn
      exact restores_declaration (fun us => restores_node value .whole us hvalue) h
  | .assignment target value _, place, ts, hn, h => by
      simp only [Shape.node, Bool.and_eq_true, beq_iff_eq] at hn
      obtain ⟨⟨rfl, -⟩, hvalue⟩ := hn
      exact restores_assignment (fun us => restores_node value .whole us hvalue) h
  | .branch condition consequent none _, place, ts, hn, h => by
      simp only [Shape.node, Bool.and_eq_true, beq_iff_eq] at hn
      obtain ⟨⟨⟨rfl, hcondition⟩, htest⟩, hblock⟩ := hn
      exact restores_branch
        (fun cs => restores_condition htest hcondition fun us => restores_parts condition us htest)
        (fun us => restores_block consequent us hblock) h
  | .branch condition consequent (some alternative) _, place, ts, hn, h => by
      simp only [Shape.node, Bool.and_eq_true, beq_iff_eq] at hn
      obtain ⟨⟨⟨⟨rfl, hcondition⟩, htest⟩, hblock⟩, helse⟩ := hn
      exact restores_branchElse
        (fun cs => restores_condition htest hcondition fun us => restores_parts condition us htest)
        (fun us => restores_block consequent us hblock)
        (fun us => restores_block alternative us helse) h
  | .loop condition body _, place, ts, hn, h => by
      simp only [Shape.node, Bool.and_eq_true, beq_iff_eq] at hn
      obtain ⟨⟨⟨rfl, hcondition⟩, htest⟩, hblock⟩ := hn
      exact restores_loop
        (fun cs => restores_condition htest hcondition fun us => restores_parts condition us htest)
        (fun us => restores_block body us hblock) h
  | .definition name parameters body _, place, ts, hn, h => by
      simp only [Shape.node, Bool.and_eq_true, beq_iff_eq] at hn
      obtain ⟨⟨⟨rfl, -⟩, -⟩, hblock⟩ := hn
      exact restores_definition (fun us => restores_block body us hblock) h
  | .call name arguments _, place, ts, hn, h => by
      simp only [Shape.node, Bool.and_eq_true] at hn
      exact restores_call (fun us => restores_items arguments us hn.2) h
  | .index offset _, place, ts, hn, h => by
      simp only [Shape.node, Bool.and_eq_true, decide_eq_true_eq] at hn
      exact restores_index hn.1 hn.2 h
  | .print value _, place, ts, hn, h => by
      simp only [Shape.node, Bool.and_eq_true, beq_iff_eq] at hn
      obtain ⟨rfl, hvalue⟩ := hn
      exact restores_print (fun us => restores_node value .whole us hvalue) h
theorem restores_parts : ∀ (e : Expression) (ts : List (Located Token)), shape.expression e = true →
    ts.map Located.value = Printing.expression { e with grouped := false } → RestoresParts e ts
  | ⟨left, none, none, _, _⟩, ts, he, h =>
      restores_node left .wrapped ts he (by simpa [Printing.expression, Printing.enclose,
        Printing.operator] using h)
  | ⟨left, some .not, none, _, _⟩, ts, he, h =>
      restores_negation (fun us => restores_node left .left us he) h
  | ⟨left, some op, some right, _, _⟩, ts, he, h => by
      rw [Shape.expression_joined, Bool.and_eq_true, Bool.and_eq_true] at he
      exact restores_operation (bne_iff_ne.mp he.1.1) (fun us => restores_node left .left us he.1.2)
        (fun us => restores_node right .right us he.2) h
theorem restores_items : ∀ (ns : List Node) (ts : List (Located Token)), shape.items ns = true →
    ts.map Located.value = Printing.items ns → RestoresItems ns ts
  | [], ts, _, h => ⟨[], rfl, fun g => by rw [List.map_eq_nil_iff.mp h]; exact .noItems⟩
  | [n], ts, hns, h => by
      simp only [Shape.items, Bool.and_eq_true] at hns
      obtain ⟨m, herase, -, hm⟩ := restores_node n .whole ts hns.1 h
      refine ⟨[m], by simp only [eraseNodes, herase], fun g => ?_⟩
      rw [← List.append_nil ts]
      exact .item (hm g) .noItems (apart_nil g ts)
  | n :: n' :: ns, ts, hns, h => by
      rw [Shape.items, Bool.and_eq_true] at hns
      obtain ⟨us, p, vs, rfl, hus, hvs⟩ := located_append_cons h
      obtain ⟨m, herase, -, hm⟩ := restores_node n .whole us hns.1 hus
      obtain ⟨ms, hms, hwritten⟩ := restores_items (n' :: ns) vs hns.2 hvs
      refine ⟨m :: ms, by rw [eraseNodes, eraseNodes, herase, hms], fun g => ?_⟩
      exact .item (hm g) (.comma p (hwritten g)) (runsOn_of_not_beginsOperand rfl g _)
theorem restores_block : ∀ (ns : List Node) (ts : List (Located Token)), shape.block ns = true →
    ts.map Located.value = Printing.block ns → RestoresBlock ns ts
  | [], ts, _, h => ⟨[], rfl, by rw [List.map_eq_nil_iff.mp h]; exact .noStatements⟩
  | n :: ns, ts, hns, h => by
      simp only [Shape.block, Bool.and_eq_true] at hns
      obtain ⟨us, vs, rfl, hus, hvs⟩ := List.map_eq_append_iff.mp h
      obtain ⟨m, herase, -, hm⟩ := restores_node n .statement us hns.1.1 hus
      obtain ⟨ms, hms, hwritten⟩ := restores_block ns vs hns.2 hvs
      refine ⟨m :: ms, by rw [eraseNodes, eraseNodes, herase, hms], ?_⟩
      exact .statement (hm false) hwritten (apart_of_endsBefore (by rw [hus, hvs]; exact hns.1.2))
end

end Canonical

/-- **Printed programs are read back.** The text of a canonical program is read
without error, and as the same program up to positions. -/
theorem Program.ofSource_print {p : Program} (h : p.Canonical) :
    ∃ q, Program.ofSource p.print = .ok q ∧ q.erase = p.erase := by
  have htokens : (tokenize p.print).items.map Located.value = Printing.block p.statements :=
    tokenize_spell (Canonical.spellable_block p.statements h)
  obtain ⟨ms, herase, hwritten⟩ := Canonical.restores_block p.statements _ h htokens
  refine ⟨⟨ms, _⟩, Program.ofSource_eq_ok_iff.mpr ⟨hwritten, rfl⟩, ?_⟩
  rw [Program.erase, Program.erase, herase]

/-- A function with a parameter, a negation between barriers, an array with a
subscript behind it, and an empty alternative. -/
theorem Program.ofSource_print_definition : ∃ p : Program,
    p.print = "📎 🍉 🌚 🍇 👉 🤔 🚧 🍇 🚫 🚧 🤝 ✅ 👉 📦 1️⃣ 0️⃣ 🌚 📋 📋 🎁 🔎 0️⃣ 💭 ⏹️ ⏹️" ∧
      p.Canonical ∧ ∃ q, Program.ofSource p.print = .ok q ∧ q.erase = p.erase := by
  let negation : Expression := ⟨.variable "🍇" .start, some .not, none, true, .start⟩
  let condition : Expression :=
    ⟨.expression negation .start, some .and, some (.boolean true .start), false, .start⟩
  let pair : Node := .array [.number 10 .start, .text "" .start] .start
  let branch : Node := .branch condition [pair, .index 0 .start] (some []) .start
  let program : Program :=
    ⟨[.definition ⟨"🍉", .start⟩ [⟨"🍇", .start⟩] [branch] .start], .start⟩
  have hcanonical : program.Canonical := by decide +kernel
  exact ⟨program, by decide +kernel, hcanonical, ofSource_print hcanonical⟩

end Pictoscript
