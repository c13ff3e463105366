import Pictoscript.Proofs.Grammar.RoundTrip
import Pictoscript.Proofs.Grammar.Sequencing
import Pictoscript.Proofs.Layout

/-! # Lists between barriers

A barrier behind `🚫` closes a group if one is open, and else opens one. Whether a
group is open is not forgotten inside the brackets of an array or of arguments,
although no group around them can be closed there. So the same list may be read in
two ways: outside groups a `🚫` in it takes a group as its right operand, between
barriers it does not, and the group becomes a member of its own.

Nothing else in a list depends on the barriers around it. The main statement is that
an array or a call is the same between any number of barriers just when none of its
negations takes a group as its right operand. What stands between barriers of its own
does not count, for there a group is open in any case.
-/

namespace Pictoscript

/-! ## Negations of groups -/

/-- Nodes that have members between brackets. -/
def Node.isList : Node → Bool
  | .array .. | .call .. => true
  | _ => false

def Node.isGrouped : Node → Bool
  | .expression content _ => content.grouped
  | _ => false

mutual
/-- Is there, outside barriers, a `🚫` that has a group as its right operand? -/
def Node.negatesGroup : Node → Bool
  | .array elements _ => Node.someNegatesGroup elements
  | .call _ arguments _ => Node.someNegatesGroup arguments
  | .expression content _ => !content.grouped && content.negatesGroup
  | _ => false
def Expression.negatesGroup : Expression → Bool
  | ⟨left, _, none, _, _⟩ => left.negatesGroup
  | ⟨left, op, some right, _, _⟩ =>
    op == some .not && right.isGrouped || left.negatesGroup || right.negatesGroup
def Node.someNegatesGroup : List Node → Bool
  | [] => false
  | n :: ns => n.negatesGroup || Node.someNegatesGroup ns
end

/-! ## Positions do not matter -/

theorem Name.erase_relocate (f : Position → Position) (name : Name) :
    (name.relocate f).erase = name.erase := rfl

mutual
theorem Node.erase_relocate (f : Position → Position) : ∀ n : Node, (n.relocate f).erase = n.erase
  | .number .. | .text .. | .boolean .. | .variable .. | .index .. => rfl
  | .array elements _ => by
      rw [Node.relocate, Node.erase, eraseNodes_relocate f elements, Node.erase]
  | .expression content _ => by
      rw [Node.relocate, Node.erase, Expression.erase_relocate f content, Node.erase]
  | .declaration _ value _ => by
      rw [Node.relocate, Node.erase, Node.erase_relocate f value, Node.erase, Name.erase_relocate]
  | .assignment _ value _ => by
      rw [Node.relocate, Node.erase, Node.erase_relocate f value, Node.erase, Name.erase_relocate]
  | .branch condition consequent none _ => by
      rw [Node.relocate, Node.erase, Expression.erase_relocate f condition,
        eraseNodes_relocate f consequent, Node.erase]
  | .branch condition consequent (some alternative) _ => by
      rw [Node.relocate, Node.erase, Expression.erase_relocate f condition,
        eraseNodes_relocate f consequent, eraseNodes_relocate f alternative, Node.erase]
  | .loop condition body _ => by
      rw [Node.relocate, Node.erase, Expression.erase_relocate f condition,
        eraseNodes_relocate f body, Node.erase]
  | .definition name parameters body _ => by
      have hnames : (parameters.map (Name.relocate f)).map Name.erase =
          parameters.map Name.erase := by
        rw [List.map_map]
        rfl
      rw [Node.relocate, Node.erase, eraseNodes_relocate f body, hnames, Node.erase,
        Name.erase_relocate]
  | .call _ arguments _ => by
      rw [Node.relocate, Node.erase, eraseNodes_relocate f arguments, Node.erase,
        Name.erase_relocate]
  | .print value _ => by rw [Node.relocate, Node.erase, Node.erase_relocate f value, Node.erase]
theorem Expression.erase_relocate (f : Position → Position) :
    ∀ e : Expression, (e.relocate f).erase = e.erase
  | ⟨left, _, none, _, _⟩ => by
      rw [Expression.relocate, Expression.erase, Node.erase_relocate f left, Expression.erase]
  | ⟨left, _, some right, _, _⟩ => by
      rw [Expression.relocate, Expression.erase, Node.erase_relocate f left,
        Node.erase_relocate f right, Expression.erase]
theorem eraseNodes_relocate (f : Position → Position) :
    ∀ ns : List Node, eraseNodes (relocateNodes f ns) = eraseNodes ns
  | [] => rfl
  | n :: ns => by
      rw [relocateNodes, eraseNodes, Node.erase_relocate f n, eraseNodes_relocate f ns, eraseNodes]
end

theorem exists_of_eraseNodes {ns : List Node} {b : Node} (h : eraseNodes ns = [b]) :
    ∃ n, ns = [n] ∧ n.erase = b := by
  match ns with
  | [] => cases h
  | [n] => exact ⟨n, rfl, (List.cons.inj h).1⟩
  | _ :: _ :: _ => simp [eraseNodes] at h

@[simp] theorem Node.isGrouped_erase (n : Node) : n.erase.isGrouped = n.isGrouped := by
  cases n with
  | expression content p => exact content.erase_grouped
  | branch condition consequent alternative p => cases alternative <;> rfl
  | _ => rfl

mutual
theorem Node.negatesGroup_erase : ∀ n : Node, n.erase.negatesGroup = n.negatesGroup
  | .number .. | .text .. | .boolean .. | .variable .. | .index .. | .declaration ..
  | .assignment .. | .loop .. | .definition .. | .print .. => rfl
  | .branch _ _ none _ | .branch _ _ (some _) _ => rfl
  | .array elements _ => by
      rw [Node.erase, Node.negatesGroup, Node.someNegatesGroup_erase elements, Node.negatesGroup]
  | .call _ arguments _ => by
      rw [Node.erase, Node.negatesGroup, Node.someNegatesGroup_erase arguments, Node.negatesGroup]
  | .expression content _ => by
      rw [Node.erase, Node.negatesGroup, Expression.negatesGroup_erase content,
        Expression.erase_grouped, Node.negatesGroup]
theorem Expression.negatesGroup_erase : ∀ e : Expression, e.erase.negatesGroup = e.negatesGroup
  | ⟨left, _, none, _, _⟩ => Node.negatesGroup_erase left
  | ⟨left, _, some right, _, _⟩ => by
      rw [Expression.erase, Expression.negatesGroup, Node.isGrouped_erase,
        Node.negatesGroup_erase left, Node.negatesGroup_erase right, Expression.negatesGroup]
theorem Node.someNegatesGroup_erase :
    ∀ ns : List Node, Node.someNegatesGroup (eraseNodes ns) = Node.someNegatesGroup ns
  | [] => rfl
  | n :: ns => by
      rw [eraseNodes, Node.someNegatesGroup, Node.negatesGroup_erase n,
        Node.someNegatesGroup_erase ns, Node.someNegatesGroup]
end

/-! ## Phrases in a group -/

namespace Grammar

open Reading

def Phrase.enclosed : Phrase → Phrase
  | .operand _ n => .operand true n
  | .chain _ n => .chain true n
  | .expression _ n => .expression true n
  | .items _ ns => .items true ns
  | φ => φ

def Phrase.isEnclosed : Phrase → Bool
  | .operand g _ | .chain g _ | .expression g _ | .items g _ => g
  | _ => false

def Phrase.negatesGroup : Phrase → Bool
  | .operand _ n | .chain _ n | .expression _ n => n.negatesGroup
  | .items _ ns => Node.someNegatesGroup ns
  | _ => false

/-- What does not run on outside groups does not do so in a group. -/
theorem runsOn_enclosed {g : Bool} {last next : Token} (h : runsOn g last next = false) :
    runsOn true last next = false := by
  unfold runsOn at h ⊢
  split at h
  · cases h
  · cases h
  · cases h
  · rw [Bool.not_eq_false'] at h ⊢
    rw [negatesLeft] at h ⊢
    cases g with
    | true => exact h
    | false =>
        rw [Bool.and_false, Bool.or_false] at h
        rw [h, Bool.true_or]
  · rfl

/-- In a group, `🚫` takes all operands that it takes elsewhere but groups. -/
theorem runsOn_not_enclosed {g : Bool} {next : Token} (hne : next ≠ .barrier) :
    runsOn true (.operator .not) next = runsOn g (.operator .not) next := by
  have hbarrier : (next == .barrier) = false := beq_eq_false_iff_ne.mpr hne
  simp [runsOn, negatesLeft, hbarrier]

theorem runsOn_not_barrier : runsOn true (.operator .not) .barrier = false := rfl

theorem Written.nextToken_eq_barrier_iff {g : Bool} {n : Node} {ts : List (Located Token)}
    (h : Written (.operand g n) ts) : nextToken ts = .barrier ↔ n.isGrouped = true := by
  cases h with
  | number written _ =>
      obtain ⟨digit, us, rfl⟩ := written.cons
      simp [Node.isGrouped]
  | reference written =>
      obtain ⟨unit, us, rfl⟩ := written.cons
      simp [Node.isGrouped]
  | namedCall q r named _ =>
      obtain ⟨unit, us, rfl⟩ := named.cons
      simp [Node.isGrouped]
  | group p q _ => simp [Node.isGrouped, Expression.grouped_group]
  | _ => simp [Node.isGrouped]

theorem negatesGroup_joined {left right : Node} {op : Operator} (p : Position) :
    (Node.expression ⟨left, some op, some right, false, p⟩ p).negatesGroup = false ↔
      (op = .not → right.isGrouped = false) ∧ left.negatesGroup = false ∧
        right.negatesGroup = false := by
  simp [Node.negatesGroup, Expression.negatesGroup, and_assoc]

theorem negatesGroup_group (n : Node) (p : Position) :
    (Node.expression (.group n) p).negatesGroup = false := by
  rw [Node.negatesGroup, Expression.grouped_group]
  rfl

/-- If no `🚫` takes a group, the phrase may also stand in a group. -/
theorem Written.enclosed {φ : Phrase} {ts : List (Located Token)} (h : Written φ ts)
    (hnegates : φ.negatesGroup = false) : Written φ.enclosed ts := by
  induction h with
  | number written bounded => exact .number written bounded
  | text value p => exact .text value p
  | boolean value p => exact .boolean value p
  | reference written => exact .reference written
  | array p q _ ih => exact .array p q (ih hnegates)
  | namedCall q r named _ ih => exact .namedCall q r named (ih hnegates)
  | markedCall p q r named _ ih => exact .markedCall p q r named (ih hnegates)
  | group p q written _ => exact .group p q written
  | first _ ih => exact .first (ih hnegates)
  | @joined _ _ _ _ _ us p _ right takesRight ihl ihr =>
      obtain ⟨hgroup, hleft, hright⟩ := (negatesGroup_joined p).mp hnegates
      refine .joined p (ihl hleft) (ihr hright) fun hop => ?_
      have hbarrier : nextToken us ≠ .barrier := by
        rw [Ne, right.nextToken_eq_barrier_iff, hgroup hop]
        decide
      rw [runsOn_not_enclosed hbarrier]
      exact takesRight hop
  | negated p _ ih => exact .negated p (ih hnegates)
  | index p written bounded => exact .index p written bounded
  | ofChain _ ih => exact .ofChain (ih hnegates)
  | noItems => exact .noItems
  | comma p _ ih => exact .comma p (ih hnegates)
  | item _ _ apart ih ihs =>
      obtain ⟨hn, hns⟩ := Bool.or_eq_false_iff.mp hnegates
      exact .item (ih hn) (ihs hns) (runsOn_enclosed apart)
  | noParameters => exact .noParameters
  | parameter p named more _ => exact .parameter p named more
  | declaration p q named written _ => exact .declaration p q named written
  | assignment p q named written _ => exact .assignment p q named written
  | branch p q r tested written _ _ => exact .branch p q r tested written
  | branchElse p q r s tested written otherwise _ _ _ =>
      exact .branchElse p q r s tested written otherwise
  | loop p q r tested written _ _ => exact .loop p q r tested written
  | definition p q r named listed written _ _ => exact .definition p q r named listed written
  | print p written _ => exact .print p written
  | marked begins written _ => exact .marked begins written
  | plain begins written _ => exact .plain begins written
  | noStatements => exact .noStatements
  | statement written more apart _ _ => exact .statement written more apart

/-- In a group no `🚫` takes a group. -/
theorem Written.not_negatesGroup {φ : Phrase} {ts : List (Located Token)} (h : Written φ ts)
    (henclosed : φ.isEnclosed = true) : φ.negatesGroup = false := by
  induction h with
  | array p q _ ih => exact ih henclosed
  | namedCall q r _ _ ih => exact ih henclosed
  | markedCall p q r _ _ ih => exact ih henclosed
  | group p q _ _ => exact negatesGroup_group _ p
  | first _ ih => exact ih henclosed
  | @joined g _ _ _ _ _ p _ right takesRight ihl ihr =>
      refine (negatesGroup_joined p).mpr ⟨fun hop => ?_, ihl henclosed, ihr henclosed⟩
      have hg : g = true := henclosed
      have htakes := takesRight hop
      rw [hg] at htakes
      rw [← Bool.not_eq_true, ← right.nextToken_eq_barrier_iff]
      intro hbarrier
      rw [hbarrier, runsOn_not_barrier] at htakes
      cases htakes
  | negated p _ ih => exact ih henclosed
  | ofChain _ ih => exact ih henclosed
  | comma p _ ih => exact ih henclosed
  | item _ _ _ ih ihs => exact Bool.or_eq_false_iff.mpr ⟨ih henclosed, ihs henclosed⟩
  | number | text | boolean | reference | index | noItems => rfl
  | _ => cases henclosed

end Grammar

/-! ## Texts between barriers -/

/-- The node between that many pairs of barriers. -/
def Node.between (n : Node) : Nat → Node
  | 0 => n
  | k + 1 => .expression ⟨n.between k, none, none, true, .start⟩ .start

def between (source : String) : Nat → String
  | 0 => source
  | k + 1 => "🚧 " ++ between source k ++ " 🚧"

theorem Cursor.map_value_upcoming (k : Cursor) :
    k.upcoming.map Located.value = units k.rest := by
  fun_induction upcoming k with
  | case1 k h => rw [units_of_unit?_none h]; rfl
  | case2 k u after h ih => rw [units_of_unit? h, List.map_cons, ih]

/-- The tokens of a text are the same wherever it begins. -/
theorem Cursor.map_value_tokens {k k' : Cursor} (h : k.rest = k'.rest) :
    k.tokens.items.map Located.value = k'.tokens.items.map Located.value := by
  have hunits : k.upcoming.map Located.value = k'.upcoming.map Located.value := by
    rw [map_value_upcoming, map_value_upcoming, h]
  rw [items_tokens_eq_scanRuns, items_tokens_eq_scanRuns, map_value_scanRuns hunits]

theorem map_value_tokenize_append {a b : String} (ha : ¬EndsInQuotation a) :
    (tokenize (a ++ " " ++ b)).items.map Located.value =
      (tokenize a).items.map Located.value ++ (tokenize b).items.map Located.value := by
  have happend := tokenize_append (b := b) (by decide : isBlank ' ' = true) ha
  change (tokenize (a ++ " " ++ b)).items = _ at happend
  rw [happend, List.map_append]
  congr 1
  rw [tokenize_eq b]
  exact Cursor.map_value_tokens rfl

/-- Barriers around a text are two more tokens. -/
theorem map_value_tokenize_barriers {a : String} (ha : ¬EndsInQuotation a) :
    (tokenize ("🚧 " ++ a ++ " 🚧")).items.map Located.value =
      .barrier :: ((tokenize a).items.map Located.value ++ [.barrier]) := by
  have hbarrier : tokenize "🚧" = ⟨[⟨.barrier, ⟨1, 1⟩⟩], ⟨1, 2⟩⟩ := by decide +kernel
  have hopen : ¬EndsInQuotation "🚧" := by decide +kernel
  have htext : "🚧 " ++ a ++ " 🚧" = "🚧" ++ " " ++ (a ++ " " ++ "🚧") := by
    apply String.toList_injective
    simp
  rw [htext, map_value_tokenize_append hopen, map_value_tokenize_append ha, hbarrier]
  rfl

namespace Grammar

variable {g : Bool} {n : Node} {ts : List (Located Token)}

/-- The tokens of a text, at whatever positions, write what they wrote in the text. -/
theorem Written.exists_moved {a : String} (h : Written (.operand g n) (tokenize a).items)
    (hts : ts.map Located.value = (tokenize a).items.map Located.value) :
    ∃ m, m.erase = n.erase ∧ Written (.operand g m) ts := by
  obtain ⟨f, rfl⟩ := exists_relocate hts.symm (pairwise_tokenize _)
  exact ⟨n.relocate f, Node.erase_relocate f n, h.relocate f⟩

/-! ## Into barriers -/

/-- The tokens of a text, with barriers around it, write the group of what they wrote
without them. -/
theorem written_barriers {a : String} (h : Written (.operand true n) (tokenize a).items) :
    ∃ m, m.erase = .expression (.group n.erase) .start ∧
      ∀ g, Written (.operand g m) (tokenize ("🚧 " ++ a ++ " 🚧")).items := by
  have hvalues := map_value_tokenize_barriers (not_endsInQuotation h.ne_illegal)
  obtain ⟨p, us, htokens, hus⟩ := Canonical.located_cons hvalues
  obtain ⟨vs, q, rfl, hvs⟩ := Canonical.located_append_singleton hus
  obtain ⟨m, herase, hmoved⟩ := h.exists_moved hvs
  refine ⟨.expression (.group m) p, ?_, ?_⟩
  · rw [Node.erase, Expression.erase_group, herase]
  · intro g
    rw [htokens]
    exact .group p q (.ofChain (.first hmoved))

/-- Barriers make a new node, except of an operation that has none. -/
theorem group_between (hn : n.isList = true) (k : Nat) :
    Expression.group (n.erase.between k) = ⟨n.erase.between k, none, none, true, .start⟩ := by
  cases k with
  | succ k => rfl
  | zero =>
      cases n with
      | array | call => rfl
      | _ => cases hn

theorem written_between {a : String} (hn : n.isList = true)
    (h : Written (.operand true n) (tokenize a).items) (k : Nat) :
    ∃ m, m.erase = n.erase.between (k + 1) ∧
      ∀ g, Written (.operand g m) (tokenize (between a (k + 1))).items := by
  induction k with
  | zero =>
      obtain ⟨m, hm, hwritten⟩ := written_barriers h
      refine ⟨m, ?_, hwritten⟩
      rw [hm, Node.between, ← group_between hn]
      rfl
  | succ k ih =>
      obtain ⟨m, hm, hwritten⟩ := ih
      obtain ⟨m', hm', hwritten'⟩ := written_barriers (hwritten true)
      refine ⟨m', ?_, hwritten'⟩
      rw [hm', hm, group_between hn, ← Node.between]

theorem Written.block_of_operand (h : Written (.operand false n) ts) :
    Written (.block [n]) ts := by
  have hstatement : Written (.statement n) ts := by
    by_cases hcall : nextToken ts = .callStart
    · exact .marked hcall h
    · exact .plain hcall (.ofChain (.first h))
  have hblock := Written.statement hstatement .noStatements (apart_nil false ts)
  rwa [List.append_nil] at hblock

/-! ## Out of barriers -/

/-- A list or a group that is a whole expression is a single operand. -/
theorem Written.operand_of_expression (h : Written (.expression g n) ts)
    (hn : n.isList = true ∨ n.isGrouped = true) : Written (.operand g n) ts := by
  cases h with
  | index p _ _ => simp [Node.isList, Node.isGrouped] at hn
  | ofChain hchain =>
      cases hchain with
      | first hoperand => exact hoperand
      | joined p _ _ _ => simp [Node.isList, Node.isGrouped] at hn
      | negated p _ => simp [Node.isList, Node.isGrouped] at hn

theorem Written.expression_of_block (h : Written (.block [n]) ts)
    (hn : n.isList = true ∨ n.isGrouped = true) : Written (.expression false n) ts := by
  cases h with
  | statement hstatement more _ =>
      cases more
      rw [List.append_nil]
      cases hstatement with
      | marked _ hoperand => exact .ofChain (.first hoperand)
      | plain _ hexpression => exact hexpression
      | _ => simp [Node.isList, Node.isGrouped] at hn

/-- An expression without barriers is there for its operator. -/
theorem Written.operator_ne_none {content : Expression} {p : Position}
    (h : Written (.expression g (.expression content p)) ts) (hbare : content.grouped = false) :
    content.operator ≠ none := by
  cases h with
  | ofChain hchain =>
      cases hchain with
      | first hoperand =>
          cases hoperand with
          | group _ _ _ =>
              rw [Expression.grouped_group] at hbare
              cases hbare
      | joined _ _ _ _ => simp
      | negated _ _ => simp

/-- What stands between the barriers of a group without operator. -/
theorem Written.exists_inner {b : Node} (h : Written (.expression g n) ts)
    (herase : n.erase = .expression ⟨b, none, none, true, .start⟩ .start) :
    ∃ m us, Written (.expression true m) us ∧ m.erase = b := by
  have hgrouped : n.isGrouped = true := by
    rw [← Node.isGrouped_erase, herase]
    rfl
  cases h.operand_of_expression (.inr hgrouped) with
  | @group _ m us p q written =>
      refine ⟨m, us, written, ?_⟩
      rw [Node.erase, Expression.erase_group] at herase
      injection herase with hgroup
      cases m with
      | expression content r =>
          rw [Node.erase, Expression.group, Expression.erase_grouped] at hgroup
          split at hgroup
          · injection hgroup
          · next hbare =>
            -- The barriers would belong to an operation, but there is no operator.
            have hoperator := written.operator_ne_none (by simpa using hbare)
            obtain ⟨left, op, right, grouped, s⟩ := content
            cases right <;> injection hgroup with _ hop <;> exact absurd hop hoperator
      | branch condition consequent alternative r =>
          cases alternative <;> injection hgroup
      | _ => injection hgroup
  | _ => cases hgrouped

theorem not_negatesGroup_of_between {b : Node} {k : Nat} (h : Written (.expression g n) ts)
    (herase : n.erase = b.between (k + 1)) : b.negatesGroup = false := by
  induction k generalizing g n ts with
  | zero =>
      obtain ⟨m, us, hm, rfl⟩ := h.exists_inner herase
      rw [Node.negatesGroup_erase]
      exact hm.not_negatesGroup rfl
  | succ k ih =>
      obtain ⟨m, us, hm, hbetween⟩ := h.exists_inner herase
      exact ih hm hbetween

end Grammar

namespace Program

open Grammar

/-- **Lists between barriers.** A text that is read as one array or one call is, between
any number of barriers, read as the same array or call inside that number of groups,
just when none of its negations takes a group as its right operand. -/
theorem ofSource_between {a : String} {p : Program} {n : Node} (ha : ofSource a = .ok p)
    (hp : p.statements = [n]) (hn : n.isList = true) (k : Nat) :
    (∃ r, ofSource (between a (k + 1)) = .ok r ∧
        eraseNodes r.statements = [n.erase.between (k + 1)]) ↔
      n.negatesGroup = false := by
  have hblock := (ofSource_eq_ok_iff.mp ha).1
  rw [hp] at hblock
  constructor
  · rintro ⟨r, hr, hstatements⟩
    have hwritten := (ofSource_eq_ok_iff.mp hr).1
    obtain ⟨m, hm, hmerase⟩ := exists_of_eraseNodes hstatements
    rw [hm] at hwritten
    have hgrouped : m.isGrouped = true := by
      rw [← Node.isGrouped_erase, hmerase]
      rfl
    have hexpression := hwritten.expression_of_block (.inr hgrouped)
    have hnegates := not_negatesGroup_of_between hexpression hmerase
    rwa [Node.negatesGroup_erase] at hnegates
  · intro hnegates
    have hoperand := (hblock.expression_of_block (.inl hn)).operand_of_expression (.inl hn)
    obtain ⟨m, hm, hwritten⟩ := written_between hn (hoperand.enclosed hnegates) k
    refine ⟨⟨[m], _⟩, ofSource_eq_ok_iff.mpr ⟨(hwritten false).block_of_operand, rfl⟩, ?_⟩
    rw [eraseNodes, hm]
    rfl

/-- Negations at the end of an argument and in a group, between two pairs of barriers. -/
theorem ofSource_between_call :
    ∃ p n, ofSource "🍉 🫑 ✅ 🚫 🌚 🚧 ✅ 🚫 🚧 🍴" = .ok p ∧ p.statements = [n] ∧
      n.isList = true ∧ n.negatesGroup = false ∧
      ∃ r, ofSource (between "🍉 🫑 ✅ 🚫 🌚 🚧 ✅ 🚫 🚧 🍴" 2) = .ok r ∧
        eraseNodes r.statements = [n.erase.between 2] := by
  have htokens : tokenize "🍉 🫑 ✅ 🚫 🌚 🚧 ✅ 🚫 🚧 🍴" =
      ⟨[⟨.symbol "🍉", ⟨1, 1⟩⟩, ⟨.callStart, ⟨1, 3⟩⟩, ⟨.boolean true, ⟨1, 5⟩⟩,
        ⟨.operator .not, ⟨1, 7⟩⟩, ⟨.comma, ⟨1, 9⟩⟩, ⟨.barrier, ⟨1, 11⟩⟩,
        ⟨.boolean true, ⟨1, 13⟩⟩, ⟨.operator .not, ⟨1, 15⟩⟩, ⟨.barrier, ⟨1, 17⟩⟩,
        ⟨.callEnd, ⟨1, 19⟩⟩], ⟨1, 20⟩⟩ := by
    decide +kernel
  let call : Node := .call ⟨"🍉", ⟨1, 1⟩⟩
    [.expression ⟨.boolean true ⟨1, 5⟩, some .not, none, false, ⟨1, 7⟩⟩ ⟨1, 7⟩,
      .expression ⟨.boolean true ⟨1, 13⟩, some .not, none, true, ⟨1, 15⟩⟩ ⟨1, 11⟩] ⟨1, 1⟩
  have hread : ofSource "🍉 🫑 ✅ 🚫 🌚 🚧 ✅ 🚫 🚧 🍴" = .ok ⟨[call], ⟨1, 1⟩⟩ := by
    rw [ofSource, htokens]
    rfl
  exact ⟨_, call, hread, rfl, rfl, rfl, (ofSource_between hread rfl rfl 1).mpr rfl⟩

/-- An array of one negation, which takes a group: between barriers it is an array of
two members. -/
theorem ofSource_between_negation :
    (∃ p, ofSource "📦 ✅ 🚫 🚧 ✅ 🚧 🎁" = .ok p ∧ p.statements =
      [.array [.expression ⟨.boolean true ⟨1, 3⟩, some .not,
        some (.expression ⟨.boolean true ⟨1, 9⟩, none, none, true, ⟨1, 9⟩⟩ ⟨1, 7⟩), false,
        ⟨1, 5⟩⟩ ⟨1, 5⟩] ⟨1, 1⟩]) ∧
    ∃ r, ofSource "🚧 📦 ✅ 🚫 🚧 ✅ 🚧 🎁 🚧" = .ok r ∧ r.statements =
      [.expression ⟨.array [
          .expression ⟨.boolean true ⟨1, 5⟩, some .not, none, false, ⟨1, 7⟩⟩ ⟨1, 7⟩,
          .expression ⟨.boolean true ⟨1, 11⟩, none, none, true, ⟨1, 11⟩⟩ ⟨1, 9⟩] ⟨1, 3⟩,
        none, none, true, ⟨1, 3⟩⟩ ⟨1, 1⟩] := by
  have htokens : tokenize "📦 ✅ 🚫 🚧 ✅ 🚧 🎁" =
      ⟨[⟨.arrayStart, ⟨1, 1⟩⟩, ⟨.boolean true, ⟨1, 3⟩⟩, ⟨.operator .not, ⟨1, 5⟩⟩,
        ⟨.barrier, ⟨1, 7⟩⟩, ⟨.boolean true, ⟨1, 9⟩⟩, ⟨.barrier, ⟨1, 11⟩⟩, ⟨.arrayEnd, ⟨1, 13⟩⟩],
        ⟨1, 14⟩⟩ := by
    decide +kernel
  have henclosed : tokenize "🚧 📦 ✅ 🚫 🚧 ✅ 🚧 🎁 🚧" =
      ⟨[⟨.barrier, ⟨1, 1⟩⟩, ⟨.arrayStart, ⟨1, 3⟩⟩, ⟨.boolean true, ⟨1, 5⟩⟩,
        ⟨.operator .not, ⟨1, 7⟩⟩, ⟨.barrier, ⟨1, 9⟩⟩, ⟨.boolean true, ⟨1, 11⟩⟩,
        ⟨.barrier, ⟨1, 13⟩⟩, ⟨.arrayEnd, ⟨1, 15⟩⟩, ⟨.barrier, ⟨1, 17⟩⟩], ⟨1, 18⟩⟩ := by
    decide +kernel
  refine ⟨⟨⟨_, ⟨1, 1⟩⟩, ?_, rfl⟩, ⟨⟨_, ⟨1, 1⟩⟩, ?_, rfl⟩⟩
  · rw [ofSource, htokens]
    rfl
  · rw [ofSource, henclosed]
    rfl

end Program

end Pictoscript
