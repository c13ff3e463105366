import Pictoscript.Proofs.Grammar.Complete

/-! # Spellings of trees

What it means for tokens to spell a tree: going through the tree from left to
right and writing the keywords and delimiters of each construct gives exactly
these tokens. The relation speaks about any tree, also one that no text spells
in this form, and knows nothing of readers, groups around a place or where one
member of a list ends.

The main statement is that no token is lost, invented or moved when a text is
read: the tokens of the text spell the tree.
-/

namespace Pictoscript

namespace Spelling

open Reading (decimalValue)

/-- A run of symbols whose units joined are the name. -/
inductive OfName : String → List Token → Prop where
  | symbols {units : List String} (ne : units ≠ []) :
      OfName (String.join units) (units.map Token.symbol)

/-- A run of digits that denotes the number. -/
inductive OfNumber : Nat → List Token → Prop where
  | digits {values : List Nat} (ne : values ≠ []) :
      OfNumber (decimalValue values) (values.map Token.digit)

/-- Parameters, each behind a comma of its own. -/
inductive OfParameters : List Name → List Token → Prop where
  | nil : OfParameters [] []
  | cons {name : Name} {names : List Name} {ts us : List Token} (named : OfName name.text ts)
      (more : OfParameters names us) : OfParameters (name :: names) (.comma :: (ts ++ us))

mutual
inductive OfNode : Node → List Token → Prop where
  | number {value : Nat} {ts : List Token} (p : Position) (digits : OfNumber value ts) :
      OfNode (.number value p) ts
  | text (value : String) (p : Position) : OfNode (.text value p) [.text value]
  | boolean (value : Bool) (p : Position) : OfNode (.boolean value p) [.boolean value]
  | reference {name : String} {ts : List Token} (p : Position) (named : OfName name ts) :
      OfNode (.variable name p) ts
  | array {elements : List Node} {ts : List Token} (p : Position)
      (listed : OfItems elements ts) :
      OfNode (.array elements p) (.arrayStart :: (ts ++ [.arrayEnd]))
  | expression {content : Expression} {ts : List Token} (p : Position)
      (spelled : OfExpression content ts) : OfNode (.expression content p) ts
  | declaration {name : Name} {value : Node} {ns ts : List Token} (p : Position)
      (named : OfName name.text ns) (spelled : OfNode value ts) :
      OfNode (.declaration name value p) (.declare :: (ns ++ .arrow :: ts))
  | assignment {target : Name} {value : Node} {ns ts : List Token} (p : Position)
      (named : OfName target.text ns) (spelled : OfNode value ts) :
      OfNode (.assignment target value p) (.assign :: (ns ++ .arrow :: ts))
  /-- Without an alternative there is no `💭`. -/
  | branch {condition : Expression} {consequent : List Node} {cs ts : List Token} (p : Position)
      (tested : OfExpression condition cs) (spelled : OfBlock consequent ts) :
      OfNode (.branch condition consequent none p)
        (.branch :: (cs ++ .arrow :: (ts ++ [.stop])))
  /-- With an alternative, even an empty one, there is exactly one `💭`. -/
  | branchElse {condition : Expression} {consequent alternative : List Node}
      {cs ts us : List Token} (p : Position) (tested : OfExpression condition cs)
      (spelled : OfBlock consequent ts) (otherwise : OfBlock alternative us) :
      OfNode (.branch condition consequent (some alternative) p)
        (.branch :: (cs ++ .arrow :: (ts ++ .otherwise :: (us ++ [.stop]))))
  | loop {condition : Expression} {body : List Node} {cs ts : List Token} (p : Position)
      (tested : OfExpression condition cs) (spelled : OfBlock body ts) :
      OfNode (.loop condition body p) (.loop :: (cs ++ .arrow :: (ts ++ [.stop])))
  | definition {name : Name} {parameters : List Name} {body : List Node}
      {ns ps ts : List Token} (p : Position) (named : OfName name.text ns)
      (listed : OfParameters parameters ps) (spelled : OfBlock body ts) :
      OfNode (.definition name parameters body p)
        (.define :: (ns ++ (ps ++ .arrow :: (ts ++ [.stop]))))
  | namedCall {name : Name} {arguments : List Node} {ns ts : List Token} (p : Position)
      (named : OfName name.text ns) (listed : OfItems arguments ts) :
      OfNode (.call name arguments p) (ns ++ .callStart :: (ts ++ [.callEnd]))
  | markedCall {name : Name} {arguments : List Node} {ns ts : List Token} (p : Position)
      (named : OfName name.text ns) (listed : OfItems arguments ts) :
      OfNode (.call name arguments p)
        (.callStart :: (ns ++ .arrow :: (ts ++ [.callEnd])))
  | index {offset : Nat} {ts : List Token} (p : Position) (digits : OfNumber offset ts) :
      OfNode (.index offset p) (.index :: ts)
  | print {value : Node} {ts : List Token} (p : Position) (spelled : OfNode value ts) :
      OfNode (.print value p) (.print :: ts)
/-- The tokens spell the expression, between barriers if it is grouped. -/
inductive OfExpression : Expression → List Token → Prop where
  | bare {left : Node} {operator : Option Operator} {right : Option Node} {ts : List Token}
      (p : Position) (spelled : OfContents left operator right ts) :
      OfExpression ⟨left, operator, right, false, p⟩ ts
  | grouped {left : Node} {operator : Option Operator} {right : Option Node} {ts : List Token}
      (p : Position) (spelled : OfContents left operator right ts) :
      OfExpression ⟨left, operator, right, true, p⟩ (.barrier :: (ts ++ [.barrier]))
/-- The tokens spell the parts of an expression in order. -/
inductive OfContents : Node → Option Operator → Option Node → List Token → Prop where
  | operand {left : Node} {ts : List Token} (spelled : OfNode left ts) :
      OfContents left none none ts
  | postfixed {left : Node} {op : Operator} {ts : List Token} (spelled : OfNode left ts) :
      OfContents left (some op) none (ts ++ [.operator op])
  | joined {left right : Node} {op : Operator} {ts us : List Token}
      (leftSpelled : OfNode left ts) (rightSpelled : OfNode right us) :
      OfContents left (some op) (some right) (ts ++ .operator op :: us)
/-- The tokens spell the members of a list in order, with commas anywhere
before, between and behind them. -/
inductive OfItems : List Node → List Token → Prop where
  | nil : OfItems [] []
  | comma {ns : List Node} {ts : List Token} (more : OfItems ns ts) :
      OfItems ns (.comma :: ts)
  | cons {n : Node} {ns : List Node} {ts us : List Token} (spelled : OfNode n ts)
      (more : OfItems ns us) : OfItems (n :: ns) (ts ++ us)
inductive OfBlock : List Node → List Token → Prop where
  | nil : OfBlock [] []
  | cons {n : Node} {ns : List Node} {ts us : List Token} (spelled : OfNode n ts)
      (more : OfBlock ns us) : OfBlock (n :: ns) (ts ++ us)
end

/-! ## From written phrases to spellings -/

open Grammar

theorem ofName_of_writesName {name : Name} {ts : List (Located Token)} (h : WritesName name ts) :
    OfName name.text (ts.map Located.value) := by
  obtain ⟨⟨units, hne, hmap, hjoin⟩, -⟩ := h
  rw [hmap, ← hjoin]
  exact .symbols hne

theorem ofNumber_of_writesNumber {value : Nat} {p : Position} {ts : List (Located Token)}
    (h : WritesNumber value p ts) : OfNumber value (ts.map Located.value) := by
  obtain ⟨⟨values, hne, hmap, rfl⟩, -⟩ := h
  rw [hmap]
  exact .digits hne

/-- A condition is spelled like the node it is made of. -/
theorem ofExpression_ofNode {n : Node} {ts : List Token} (h : OfNode n ts) :
    OfExpression (.ofNode n) ts := by
  cases n with
  | expression content p =>
      cases h with
      | expression _ spelled => exact spelled
  | _ => exact .bare _ (.operand h)

/-- Barriers around a node spell what grouping makes of it: the flag of an
expression that had none, or one more expression around the node. -/
theorem ofExpression_group {n : Node} {ts : List Token} (h : OfNode n ts) :
    OfExpression (.group n) (.barrier :: (ts ++ [.barrier])) := by
  cases n with
  | expression content p =>
      cases h with
      | expression _ spelled =>
          cases spelled with
          | bare q spelled => exact .grouped q spelled
          | grouped q spelled => exact .grouped _ (.operand (.expression p (.grouped q spelled)))
  | _ => exact .grouped _ (.operand h)

def OfPhrase : Phrase → List Token → Prop
  | .operand _ n, ts | .chain _ n, ts | .expression _ n, ts | .statement n, ts => OfNode n ts
  | .items _ ns, ts => OfItems ns ts
  | .parameters names, ts => OfParameters names ts
  | .block ns, ts => OfBlock ns ts

/-- Whatever writes a phrase spells it. -/
theorem ofPhrase_of_written {φ : Phrase} {ts : List (Located Token)} (h : Written φ ts) :
    OfPhrase φ (ts.map Located.value) := by
  induction h with
  | number written _ => exact .number _ (ofNumber_of_writesNumber written)
  | text value p => exact .text value p
  | boolean value p => exact .boolean value p
  | reference written => exact .reference _ (ofName_of_writesName written)
  | array p q _ ih =>
      simp only [List.map_cons, List.map_append, List.map_nil]
      exact .array p ih
  | namedCall q r named _ ih =>
      simp only [List.map_cons, List.map_append, List.map_nil]
      exact .namedCall _ (ofName_of_writesName named) ih
  | markedCall p q r named _ ih =>
      simp only [List.map_cons, List.map_append, List.map_nil]
      exact .markedCall p (ofName_of_writesName named) ih
  | group p q _ ih =>
      simp only [List.map_cons, List.map_append, List.map_nil]
      exact .expression p (ofExpression_group ih)
  | first _ ih => exact ih
  | joined p _ _ _ ihl ihr =>
      simp only [List.map_cons, List.map_append]
      exact .expression p (.bare p (.joined ihl ihr))
  | negated p _ ih =>
      simp only [List.map_cons, List.map_append, List.map_nil]
      exact .expression p (.bare p (.postfixed ih))
  | index p written _ => exact .index p (ofNumber_of_writesNumber written)
  | ofChain _ ih => exact ih
  | noItems => exact .nil
  | comma p _ ih => exact .comma ih
  | item _ _ _ ih ihs =>
      rw [List.map_append]
      exact .cons ih ihs
  | noParameters => exact .nil
  | parameter p named _ ih =>
      rw [List.map_cons, List.map_append]
      exact .cons (ofName_of_writesName named) ih
  | declaration p q named _ ih =>
      simp only [List.map_cons, List.map_append]
      exact .declaration p (ofName_of_writesName named) ih
  | assignment p q named _ ih =>
      simp only [List.map_cons, List.map_append]
      exact .assignment p (ofName_of_writesName named) ih
  | branch p q r _ _ ihc ih =>
      simp only [List.map_cons, List.map_append, List.map_nil]
      exact .branch p (ofExpression_ofNode ihc) ih
  | branchElse p q r s _ _ _ ihc ih iho =>
      simp only [List.map_cons, List.map_append, List.map_nil]
      exact .branchElse p (ofExpression_ofNode ihc) ih iho
  | loop p q r _ _ ihc ih =>
      simp only [List.map_cons, List.map_append, List.map_nil]
      exact .loop p (ofExpression_ofNode ihc) ih
  | definition p q r named _ _ ihp ih =>
      simp only [List.map_cons, List.map_append, List.map_nil]
      exact .definition p (ofName_of_writesName named) ihp ih
  | print p _ ih => exact .print p ih
  | marked _ _ ih => exact ih
  | plain _ _ ih => exact ih
  | noStatements => exact .nil
  | statement _ _ _ ih ihs =>
      rw [List.map_append]
      exact .cons ih ihs

/-- **No token is lost, invented or moved.** The tokens of a text that is read,
all but the closing end, spell the program. -/
theorem tokenize_spells_program {source : String} {p : Program}
    (h : Program.ofSource source = .ok p) :
    ∃ ts, (tokenize source).toList.map Located.value = ts ++ [.endOfInput] ∧
      OfBlock p.statements ts := by
  obtain ⟨hwritten, -⟩ := Program.ofSource_eq_ok_iff.mp h
  refine ⟨(tokenize source).items.map Located.value, ?_, ofPhrase_of_written hwritten⟩
  rw [Tokens.toList, List.map_append]
  rfl

/-- A branch on a negation, with a call opened by `🫑`, commas side by side in
its arguments and an empty alternative. -/
theorem tokenize_spells_branch :
    ∃ p, Program.ofSource "🤔 ✅ 🚫 👉 🫑 🍉 🍇 👉 📋 ✅ 📋 🌚 🌚 1️⃣ 0️⃣ 🍴 💭 ⏹" = .ok p ∧
      p.statements.length = 1 ∧
      ∃ ts, (tokenize "🤔 ✅ 🚫 👉 🫑 🍉 🍇 👉 📋 ✅ 📋 🌚 🌚 1️⃣ 0️⃣ 🍴 💭 ⏹").toList.map
          Located.value = ts ++ [.endOfInput] ∧ OfBlock p.statements ts := by
  have htokens : tokenize "🤔 ✅ 🚫 👉 🫑 🍉 🍇 👉 📋 ✅ 📋 🌚 🌚 1️⃣ 0️⃣ 🍴 💭 ⏹" =
      ⟨[⟨.branch, ⟨1, 1⟩⟩, ⟨.boolean true, ⟨1, 3⟩⟩, ⟨.operator .not, ⟨1, 5⟩⟩, ⟨.arrow, ⟨1, 7⟩⟩,
        ⟨.callStart, ⟨1, 9⟩⟩, ⟨.symbol "🍉", ⟨1, 11⟩⟩, ⟨.symbol "🍇", ⟨1, 13⟩⟩,
        ⟨.arrow, ⟨1, 15⟩⟩, ⟨.text "✅", ⟨1, 17⟩⟩, ⟨.comma, ⟨1, 23⟩⟩, ⟨.comma, ⟨1, 25⟩⟩,
        ⟨.digit 1, ⟨1, 27⟩⟩, ⟨.digit 0, ⟨1, 31⟩⟩, ⟨.callEnd, ⟨1, 35⟩⟩, ⟨.otherwise, ⟨1, 37⟩⟩,
        ⟨.stop, ⟨1, 39⟩⟩], ⟨1, 40⟩⟩ := by
    decide +kernel
  have hread : Program.ofSource "🤔 ✅ 🚫 👉 🫑 🍉 🍇 👉 📋 ✅ 📋 🌚 🌚 1️⃣ 0️⃣ 🍴 💭 ⏹" =
      .ok ⟨[.branch ⟨.boolean true ⟨1, 3⟩, some .not, none, false, ⟨1, 5⟩⟩
        [.call ⟨"🍉🍇", ⟨1, 11⟩⟩ [.text "✅" ⟨1, 17⟩, .number 10 ⟨1, 27⟩] ⟨1, 9⟩]
        (some []) ⟨1, 1⟩], ⟨1, 1⟩⟩ := by
    rw [Program.ofSource, htokens]
    rfl
  exact ⟨_, hread, rfl, tokenize_spells_program hread⟩

end Spelling

end Pictoscript
