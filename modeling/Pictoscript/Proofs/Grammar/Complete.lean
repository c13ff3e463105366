import Pictoscript.Proofs.Grammar.Sound
import Pictoscript.Proofs.Lexing

/-! # What is written is read

The converse of `Sound`: from tokens that write a phrase, and that end where the
tokens behind them begin, the readers return the tree of the phrase. A reader
needs a recursion bound in proportion to the tokens of the phrase alone,
whatever comes behind them.

Together the two directions say which programs are read from a text: those whose
statements its tokens write as a block (`ofSource_eq_ok_iff`).
-/

namespace Pictoscript

namespace Reading

open Grammar

variable {α β : Type} {stop : Position}

/-! ## Single steps -/

theorem bind_of_done {r : Reading α} {f : α → Reading β} {ts rest : List (Located Token)} {a : α}
    (h : r stop ts = .done a rest) : (r >>= f) stop ts = f a stop rest := by
  rw [bind_apply, h]

theorem expect_bind_cons (wanted : Token) (p : Position) (f : Unit → Reading β)
    (ts : List (Located Token)) :
    (expect wanted >>= f) stop (⟨wanted, p⟩ :: ts) = f () stop ts := by
  apply bind_of_done
  show (if wanted = wanted then skip else _) stop _ = _
  rw [if_pos rfl]
  rfl

/-! ## Runs of symbols and digits -/

/-- A run is cut off as a whole if no further token of its kind follows. -/
theorem CutsRun.append {f : α → Token} {run : List (Located Token) → List α × List (Located Token)}
    (h : CutsRun f run) {rest : List (Located Token)} (hnext : ∀ a, nextToken rest ≠ f a) :
    ∀ {us : List (Located Token)} {as : List α},
      us.map Located.value = as.map f → run (us ++ rest) = (as, rest)
  | [], as, hmap => by
      obtain rfl : as = [] := by simpa using hmap.symm
      exact h.stop hnext
  | _ :: _, [], hmap => by simp at hmap
  | ⟨value, p⟩ :: us, a :: as, hmap => by
      simp only [List.map_cons, List.cons.injEq] at hmap
      rw [List.cons_append, hmap.1, h.cons, h.append hnext hmap.2]

theorem name_of_writesName {role : NameRole} {n : Name} {us rest : List (Located Token)}
    (h : WritesName n us) (hnext : ∀ unit, nextToken rest ≠ .symbol unit) :
    name role stop (us ++ rest) = .done n rest := by
  obtain ⟨unit, vs, rfl⟩ := h.cons
  obtain ⟨⟨units, hne, hmap, hjoin⟩, -⟩ := h
  obtain ⟨unit, units, rfl⟩ := List.exists_cons_of_ne_nil hne
  rw [name, cutsRun_symbolRun.append hnext hmap]
  simp only [hjoin, List.cons_append, head_cons]

theorem number_of_writesNumber {limit value : Nat} {p : Position}
    {us rest : List (Located Token)} (h : WritesNumber value p us) (hle : value ≤ limit)
    (hlimit : limit ≤ offsetLimit) (hnext : ∀ digit, nextToken rest ≠ .digit digit) :
    number limit stop (us ++ rest) = .done value rest := by
  obtain ⟨⟨values, -, hmap, rfl⟩, -⟩ := h
  rw [number_apply, cutsRun_digitRun.append hnext hmap]
  exact if_pos (Nat.le_min.mpr ⟨hle, Nat.le_trans hle hlimit⟩)

end Reading

namespace Grammar

open Reading

/-! ## What a reader makes of a phrase -/

/-- The reader of a phrase returns its tree and leaves the tokens behind it. For
a chain, reading its first operand and going on is going on behind the chain. -/
def Phrase.ReadBack : Phrase → List (Located Token) → Prop
  | .operand g n, us => ∀ (bound : Nat) (stop : Position) (rest : List (Located Token)),
      3 * us.length + 1 ≤ bound → Apart g us rest →
      operandWithin bound g stop (us ++ rest) = .done n rest
  | .chain g n, us => ∀ (bound : Nat) (stop : Position) (rest : List (Located Token)),
      3 * us.length + 1 ≤ bound → Apart g us rest →
      ∃ bound', bound ≤ bound' + us.length ∧
        (operandWithin bound g >>= chainWithin bound g) stop (us ++ rest) =
          chainWithin bound' g n stop rest
  | .expression g n, us => ∀ (bound : Nat) (stop : Position) (rest : List (Located Token)),
      3 * us.length + 2 ≤ bound → Apart g us rest →
      (∀ op, nextToken rest ≠ .operator op) →
      expressionWithin bound g stop (us ++ rest) = .done n rest
  | .items g ns, us => ∀ (bound : Nat) (stop : Position) (close : Token)
      (rest : List (Located Token)), 3 * us.length + 3 ≤ bound →
      close = .callEnd ∨ close = .arrayEnd → nextToken rest = close →
      itemsWithin bound g close stop (us ++ rest) = .done ns rest
  | .parameters names, us => ∀ (bound : Nat) (stop : Position) (rest : List (Located Token)),
      us.length + 1 ≤ bound → nextToken rest = .arrow →
      parametersWithin bound stop (us ++ rest) = .done names rest
  | .statement n, us => ∀ (bound : Nat) (stop : Position) (rest : List (Located Token)),
      2 * us.length + 1 ≤ bound → Apart false us rest →
      (∀ op, nextToken rest ≠ .operator op) →
      statementWithin bound stop (us ++ rest) = .done n rest
  | .block ns, us => ∀ (bound : Nat) (stop : Position) (closing : List Token)
      (rest : List (Located Token)), 2 * us.length + 2 ≤ bound →
      closing ⊆ [.otherwise, .stop] →
      nextToken rest = .endOfInput ∨ nextToken rest ∈ closing →
      blockWithin bound closing stop (us ++ rest) = .done ns rest

variable {g : Bool} {ts us : List (Located Token)}

theorem exists_eq_succ {k bound : Nat} (h : k + 1 ≤ bound) : ∃ b, bound = b + 1 :=
  ⟨bound - 1, by omega⟩

/-! ## Operands -/

theorem readBack_number {value : Nat} {p : Position} (h : WritesNumber value p us)
    (hle : value ≤ numberLimit) : (Phrase.operand g (.number value p)).ReadBack us := by
  intro bound stop rest hbound hapart
  obtain ⟨b, rfl⟩ := exists_eq_succ hbound
  have hread : number numberLimit stop (us ++ rest) = .done value rest :=
    number_of_writesNumber h hle (by decide) (h.apart_iff.mp hapart)
  obtain ⟨digit, vs, rfl⟩ := h.cons
  rw [List.cons_append] at hread ⊢
  simp only [operandWithin, current_bind_apply, head_cons]
  rw [bind_of_done hread]
  rfl

theorem readBack_reference {name : Name} (h : WritesName name us) :
    (Phrase.operand g (.variable name.text name.position)).ReadBack us := by
  intro bound stop rest hbound hapart
  obtain ⟨b, rfl⟩ := exists_eq_succ hbound
  obtain ⟨hsymbol, hcall⟩ := h.apart_iff.mp hapart
  have hread : Reading.name .reference stop (us ++ rest) = .done name rest :=
    name_of_writesName h hsymbol
  obtain ⟨unit, vs, rfl⟩ := h.cons
  rw [List.cons_append] at hread ⊢
  simp only [operandWithin, current_bind_apply, head_cons]
  rw [bind_of_done hread, current_bind_apply, head_value, if_neg hcall]
  rfl

theorem readBack_array {elements : List Node} {p q : Position}
    (h : (Phrase.items g elements).ReadBack ts) :
    (Phrase.operand g (.array elements p)).ReadBack
      (⟨.arrayStart, p⟩ :: (ts ++ [⟨.arrayEnd, q⟩])) := by
  intro bound stop rest hbound _
  obtain ⟨b, rfl⟩ := exists_eq_succ hbound
  simp only [List.length_cons, List.length_append, List.length_nil] at hbound
  have hread := h b stop .arrayEnd (⟨.arrayEnd, q⟩ :: rest) (by omega) (Or.inr rfl) rfl
  simp only [operandWithin, List.cons_append, List.append_assoc, List.nil_append,
    current_bind_apply, head_cons, skip_bind_apply, List.tail_cons]
  rw [bind_of_done hread, expect_bind_cons]
  rfl

theorem readBack_namedCall {name : Name} {arguments : List Node}
    {ns : List (Located Token)} {q r : Position} (hname : WritesName name ns)
    (h : (Phrase.items g arguments).ReadBack ts) :
    (Phrase.operand g (.call name arguments name.position)).ReadBack
      (ns ++ ⟨.callStart, q⟩ :: (ts ++ [⟨.callEnd, r⟩])) := by
  intro bound stop rest hbound _
  obtain ⟨b, rfl⟩ := exists_eq_succ hbound
  simp only [List.length_cons, List.length_append, List.length_nil] at hbound
  have hread := h b stop .callEnd (⟨.callEnd, r⟩ :: rest) (by omega) (Or.inl rfl) rfl
  have hcallee : Reading.name .reference stop
      (ns ++ ⟨.callStart, q⟩ :: (ts ++ ⟨.callEnd, r⟩ :: rest)) = .done name _ :=
    name_of_writesName hname (by simp)
  obtain ⟨unit, vs, rfl⟩ := hname.cons
  simp only [operandWithin, List.cons_append, List.append_assoc, List.nil_append,
    current_bind_apply, head_cons] at hcallee ⊢
  rw [bind_of_done hcallee, current_bind_apply, head_cons, if_pos rfl, skip_bind_apply,
    List.tail_cons, bind_of_done hread, expect_bind_cons]
  rfl

theorem readBack_markedCall {name : Name} {arguments : List Node}
    {ns : List (Located Token)} {p q r : Position} (hname : WritesName name ns)
    (h : (Phrase.items g arguments).ReadBack ts) :
    (Phrase.operand g (.call name arguments p)).ReadBack
      (⟨.callStart, p⟩ :: (ns ++ ⟨.arrow, q⟩ :: (ts ++ [⟨.callEnd, r⟩]))) := by
  intro bound stop rest hbound _
  obtain ⟨b, rfl⟩ := exists_eq_succ hbound
  simp only [List.length_cons, List.length_append, List.length_nil] at hbound
  have hread := h b stop .callEnd (⟨.callEnd, r⟩ :: rest) (by omega) (Or.inl rfl) rfl
  simp only [operandWithin, List.cons_append, List.append_assoc, List.nil_append,
    current_bind_apply, head_cons, skip_bind_apply, List.tail_cons]
  rw [bind_of_done (name_of_writesName hname (by simp)), expect_bind_cons, bind_of_done hread,
    expect_bind_cons]
  rfl

theorem readBack_group {n : Node} {p q : Position} (h : (Phrase.expression true n).ReadBack ts) :
    (Phrase.operand g (.expression (.group n) p)).ReadBack
      (⟨.barrier, p⟩ :: (ts ++ [⟨.barrier, q⟩])) := by
  intro bound stop rest hbound _
  obtain ⟨b, rfl⟩ := exists_eq_succ hbound
  simp only [List.length_cons, List.length_append, List.length_nil] at hbound
  have hread := h b stop (⟨.barrier, q⟩ :: rest) (by omega) (apart_barrier _ _ _) (by simp)
  simp only [operandWithin, List.cons_append, List.append_assoc, List.nil_append,
    current_bind_apply, head_cons, skip_bind_apply, List.tail_cons]
  rw [bind_of_done hread, expect_bind_cons]
  rfl

/-! ## Chains -/

/-- A chain ends before anything but an operator. -/
theorem chainWithin_of_not_operator {b : Nat} {n : Node} {stop : Position}
    {rest : List (Located Token)} (h : ∀ op, nextToken rest ≠ .operator op) :
    chainWithin (b + 1) g n stop rest = .done n rest := by
  rw [← head_value stop] at h
  obtain ⟨t, p, hhead⟩ : ∃ t p, head stop rest = ⟨t, p⟩ := ⟨_, _, rfl⟩
  simp only [chainWithin, current_bind_apply, hhead] at h ⊢
  split
  · next op => exact absurd rfl (h op)
  · rfl

/-- A chain never runs on into an operator. -/
theorem apart_operator (op : Operator) (p : Position) : Apart g ts (⟨.operator op, p⟩ :: us) :=
  runsOn_of_not_beginsOperand rfl g (lastToken ts)

theorem readBack_first {n : Node} (h : (Phrase.operand g n).ReadBack us) :
    (Phrase.chain g n).ReadBack us := by
  intro bound stop rest hbound hapart
  exact ⟨bound, by omega, bind_of_done (h bound stop rest hbound hapart)⟩

theorem readBack_joined {left right : Node} {op : Operator} {p : Position} (hne : us ≠ [])
    (hleft : (Phrase.chain g left).ReadBack ts) (hright : (Phrase.operand g right).ReadBack us)
    (htakes : op = .not → runsOn g (.operator .not) (nextToken us) = true) :
    (Phrase.chain g (.expression ⟨left, some op, some right, false, p⟩ p)).ReadBack
      (ts ++ ⟨.operator op, p⟩ :: us) := by
  intro bound stop rest hbound hapart
  simp only [List.length_cons, List.length_append] at hbound ⊢
  rw [Apart, lastToken_append_cons, ← List.singleton_append, lastToken_append hne] at hapart
  rw [List.append_assoc, List.cons_append]
  obtain ⟨b, hb, hread⟩ :=
    hleft bound stop (⟨.operator op, p⟩ :: (us ++ rest)) (by omega) (apart_operator op p)
  obtain ⟨b, rfl⟩ : ∃ b', b = b' + 1 := ⟨b - 1, by omega⟩
  refine ⟨b, by omega, hread.trans ?_⟩
  have hnot : ¬(op = .not ∧ negatesLeft g (nextToken (us ++ rest)) = true) := by
    rintro ⟨hop, hnegates⟩
    rw [nextToken_append hne] at hnegates
    simpa [runsOn, hnegates] using htakes hop
  simp only [chainWithin, current_bind_apply, head_cons, following_bind_apply, skip_bind_apply,
    List.tail_cons, head_value]
  rw [if_neg hnot, bind_of_done (hright b stop rest (by omega) hapart)]

theorem readBack_negated {left : Node} {p : Position}
    (hleft : (Phrase.chain g left).ReadBack ts) :
    (Phrase.chain g (.expression ⟨left, some .not, none, false, p⟩ p)).ReadBack
      (ts ++ [⟨.operator .not, p⟩]) := by
  intro bound stop rest hbound hapart
  simp only [List.length_cons, List.length_append, List.length_nil] at hbound ⊢
  rw [List.append_assoc, List.cons_append, List.nil_append]
  obtain ⟨b, hb, hread⟩ :=
    hleft bound stop (⟨.operator .not, p⟩ :: rest) (by omega) (apart_operator .not p)
  obtain ⟨b, rfl⟩ : ∃ b', b = b' + 1 := ⟨b - 1, by omega⟩
  refine ⟨b, by omega, hread.trans ?_⟩
  have hnot : negatesLeft g (nextToken rest) = true := by
    simpa [Apart, runsOn] using hapart
  simp only [chainWithin, current_bind_apply, head_cons, following_bind_apply, skip_bind_apply,
    List.tail_cons, head_value]
  rw [if_pos ⟨trivial, hnot⟩]

theorem readBack_index {offset : Nat} {p q : Position} (h : WritesNumber offset q us)
    (hle : offset ≤ offsetLimit) :
    (Phrase.expression g (.index offset p)).ReadBack (⟨.index, p⟩ :: us) := by
  intro bound stop rest hbound hapart _
  obtain ⟨b, rfl⟩ := exists_eq_succ hbound
  obtain ⟨digit, vs, rfl⟩ := h.cons
  have hread : number offsetLimit stop _ = .done offset rest :=
    number_of_writesNumber h hle (Nat.le_refl offsetLimit) (h.apart_iff.mp hapart)
  rw [List.cons_append] at hread
  rw [expressionWithin, current_bind_apply, head_value, List.cons_append, nextToken_cons,
    if_pos rfl]
  simp only [index, List.cons_append, current_bind_apply, head_cons, skip_bind_apply,
    List.tail_cons]
  rw [bind_of_done hread]
  rfl

theorem readBack_ofChain {n : Node} (hbegins : beginsOperand (nextToken us) = true)
    (h : (Phrase.chain g n).ReadBack us) : (Phrase.expression g n).ReadBack us := by
  intro bound stop rest hbound hapart hoperator
  obtain ⟨b, rfl⟩ := exists_eq_succ hbound
  have hne : us ≠ [] := by
    rintro rfl
    exact absurd hbegins (by decide)
  have hindex : nextToken (us ++ rest) ≠ .index := by
    intro hindex
    rw [nextToken_append hne] at hindex
    rw [hindex] at hbegins
    exact absurd hbegins (by decide)
  obtain ⟨b', hb', hread⟩ := h b stop rest (by omega) hapart
  obtain ⟨c, rfl⟩ : ∃ c, b' = c + 1 := ⟨b' - 1, by omega⟩
  rw [expressionWithin, current_bind_apply, head_value, if_neg hindex]
  exact hread.trans (chainWithin_of_not_operator hoperator)

/-! ## Lists -/

theorem not_operator_of_beginsStatement {t : Token} (h : beginsStatement t = true)
    (op : Operator) : t ≠ .operator op := by
  rintro rfl
  simp [beginsStatement, beginsExpression, beginsOperand, Token.startsOperand] at h

theorem readBack_noItems : (Phrase.items g []).ReadBack [] := by
  intro bound stop close rest hbound _ hclose
  obtain ⟨b, rfl⟩ := exists_eq_succ hbound
  rw [itemsWithin, current_bind_apply, List.nil_append, head_value, if_pos (Or.inr hclose)]
  rfl

theorem readBack_comma {ns : List Node} {p : Position} (h : (Phrase.items g ns).ReadBack us) :
    (Phrase.items g ns).ReadBack (⟨.comma, p⟩ :: us) := by
  intro bound stop close rest hbound hend hclose
  obtain ⟨b, rfl⟩ := exists_eq_succ hbound
  rw [List.length_cons] at hbound
  have hmore : ¬(Token.comma = .endOfInput ∨ Token.comma = close) := by
    rcases hend with rfl | rfl <;> simp
  rw [itemsWithin, current_bind_apply, head_value, List.cons_append, nextToken_cons,
    if_neg hmore, if_pos rfl, skip_bind_apply, List.tail_cons]
  exact h b stop close rest (by omega) hend hclose

theorem readBack_item {n : Node} {ns : List Node} (hbegins : beginsExpression (nextToken ts) = true)
    (hmore : (Phrase.items g ns).Begins (nextToken us)) (hapart : Apart g ts us)
    (h : (Phrase.expression g n).ReadBack ts) (hs : (Phrase.items g ns).ReadBack us) :
    (Phrase.items g (n :: ns)).ReadBack (ts ++ us) := by
  intro bound stop close rest hbound hend hclose
  obtain ⟨b, rfl⟩ := exists_eq_succ hbound
  have hne : ts ≠ [] := ne_nil_of_beginsStatement (beginsStatement_of_expression hbegins)
  have hpos : 0 < ts.length := List.length_pos_iff.mpr hne
  rw [List.length_append] at hbound
  have hopen : ¬(nextToken ts = .endOfInput ∨ nextToken ts = close) := by
    rintro (heq | heq) <;> rw [heq] at hbegins
    · exact absurd hbegins (by decide)
    · rcases hend with rfl | rfl <;> exact absurd hbegins (by decide)
  have hcomma : nextToken ts ≠ .comma := by
    intro heq
    rw [heq] at hbegins
    exact absurd hbegins (by decide)
  have hoperand : beginsOperand (nextToken rest) = false := by
    rw [hclose]
    rcases hend with rfl | rfl <;> rfl
  have hoperator : ∀ op, nextToken (us ++ rest) ≠ .operator op := by
    cases us with
    | nil =>
        rw [List.nil_append, hclose]
        rcases hend with rfl | rfl <;> simp
    | cons u us =>
        rcases hmore with heq | heq | heq
        · rw [List.cons_append, nextToken_cons]
          rw [nextToken_cons] at heq
          simp [heq]
        · rw [List.cons_append, nextToken_cons]
          rw [nextToken_cons] at heq
          simp [heq]
        · exact not_operator_of_beginsStatement (beginsStatement_of_expression heq)
  rw [itemsWithin, current_bind_apply, head_value, List.append_assoc, nextToken_append hne,
    if_neg hopen, if_neg hcomma,
    bind_of_done (h b stop (us ++ rest) (by omega) (hapart.append hoperand) hoperator),
    bind_of_done (hs b stop close rest (by omega) hend hclose)]
  rfl

theorem readBack_noParameters : (Phrase.parameters []).ReadBack [] := by
  intro bound stop rest hbound harrow
  obtain ⟨b, rfl⟩ := exists_eq_succ hbound
  rw [parametersWithin, current_bind_apply, List.nil_append, head_value, harrow,
    if_neg (by simp)]
  rfl

/-- A name ends before a list of parameters. -/
theorem not_symbol_of_begins {names : List Name} {rest : List (Located Token)}
    (h : (Phrase.parameters names).Begins (nextToken us))
    (hrest : ∀ unit, nextToken rest ≠ .symbol unit) (unit : String) :
    nextToken (us ++ rest) ≠ .symbol unit := by
  cases us with
  | nil => exact hrest unit
  | cons u us =>
      rw [List.cons_append]
      rcases h with heq | heq <;> rw [nextToken_cons] at heq ⊢ <;> simp [heq]

theorem readBack_parameter {name : Name} {names : List Name} {p : Position}
    (hname : WritesName name ts) (hmore : (Phrase.parameters names).Begins (nextToken us))
    (hs : (Phrase.parameters names).ReadBack us) :
    (Phrase.parameters (name :: names)).ReadBack (⟨.comma, p⟩ :: (ts ++ us)) := by
  intro bound stop rest hbound harrow
  obtain ⟨b, rfl⟩ := exists_eq_succ hbound
  simp only [List.length_cons, List.length_append] at hbound
  have hsymbol : ∀ unit, nextToken (us ++ rest) ≠ .symbol unit :=
    not_symbol_of_begins hmore (by simp [harrow])
  rw [parametersWithin, current_bind_apply, List.cons_append, head_cons, if_pos rfl,
    skip_bind_apply, List.tail_cons, List.append_assoc,
    bind_of_done (name_of_writesName hname hsymbol),
    bind_of_done (hs b stop rest (by omega) harrow)]
  rfl

/-! ## Statements -/

section Statements

variable {stop : Position} {rest : List (Located Token)} {n : Node}

theorem expression_of_readBack (h : (Phrase.expression false n).ReadBack us)
    (hapart : Apart false us rest) (hoperator : ∀ op, nextToken rest ≠ .operator op) :
    expression stop (us ++ rest) = .done n rest := by
  apply h _ stop rest _ hapart hoperator
  rw [expressionBound, List.length_append]
  omega

/-- A condition is read up to the arrow behind it. -/
theorem expression_bind_arrow {β : Type} {q : Position} {f : Node → Reading β}
    (h : (Phrase.expression false n).ReadBack us) :
    (expression >>= fun n => expect .arrow >>= fun _ => f n) stop (us ++ ⟨.arrow, q⟩ :: rest) =
      f n stop rest := by
  rw [bind_of_done (expression_of_readBack h _ (by simp)), expect_bind_cons]
  exact runsOn_of_not_beginsOperand rfl false (lastToken us)

/-- A block is read up to the stop behind it. -/
theorem blockWithin_stop {b : Nat} {ns : List Node} {r : Position} {closing : List Token}
    (h : (Phrase.block ns).ReadBack us) (hbound : 2 * us.length + 2 ≤ b)
    (hclosing : closing ⊆ [.otherwise, .stop]) (hstop : .stop ∈ closing) :
    blockWithin b closing stop (us ++ ⟨.stop, r⟩ :: rest) = .done ns (⟨.stop, r⟩ :: rest) :=
  h b stop closing _ hbound hclosing (Or.inr hstop)

end Statements

/-- Declarations and assignments differ only in their first token and in the
role of their name. -/
theorem Apart.value {p q : Position} {mark : Token} {ns rest : List (Located Token)}
    (hne : us ≠ []) (h : Apart false (⟨mark, p⟩ :: (ns ++ ⟨.arrow, q⟩ :: us)) rest) :
    Apart false us rest := by
  rw [Apart, lastToken_cons_append_cons, ← List.singleton_append, lastToken_append hne] at h
  exact h

theorem readBack_declaration {name : Name} {value : Node} {ns : List (Located Token)}
    {p q : Position} (hname : WritesName name ns) (hne : us ≠ [])
    (h : (Phrase.expression false value).ReadBack us) :
    (Phrase.statement (.declaration name value p)).ReadBack
      (⟨.declare, p⟩ :: (ns ++ ⟨.arrow, q⟩ :: us)) := by
  intro bound stop rest hbound hapart hoperator
  obtain ⟨b, rfl⟩ := exists_eq_succ hbound
  simp only [statementWithin, List.cons_append, List.append_assoc, current_bind_apply,
    head_cons, skip_bind_apply, List.tail_cons]
  rw [bind_of_done (name_of_writesName hname (by simp)), expect_bind_cons,
    bind_of_done (expression_of_readBack h (hapart.value hne) hoperator)]
  rfl

theorem readBack_assignment {name : Name} {value : Node} {ns : List (Located Token)}
    {p q : Position} (hname : WritesName name ns) (hne : us ≠ [])
    (h : (Phrase.expression false value).ReadBack us) :
    (Phrase.statement (.assignment name value p)).ReadBack
      (⟨.assign, p⟩ :: (ns ++ ⟨.arrow, q⟩ :: us)) := by
  intro bound stop rest hbound hapart hoperator
  obtain ⟨b, rfl⟩ := exists_eq_succ hbound
  simp only [statementWithin, List.cons_append, List.append_assoc, current_bind_apply,
    head_cons, skip_bind_apply, List.tail_cons]
  rw [bind_of_done (name_of_writesName hname (by simp)), expect_bind_cons,
    bind_of_done (expression_of_readBack h (hapart.value hne) hoperator)]
  rfl

theorem readBack_branch {condition : Node} {consequent : List Node}
    {cs : List (Located Token)} {p q r : Position}
    (hcondition : (Phrase.expression false condition).ReadBack cs)
    (h : (Phrase.block consequent).ReadBack ts) :
    (Phrase.statement (.branch (.ofNode condition) consequent none p)).ReadBack
      (⟨.branch, p⟩ :: (cs ++ ⟨.arrow, q⟩ :: (ts ++ [⟨.stop, r⟩]))) := by
  intro bound stop rest hbound _ _
  obtain ⟨b, rfl⟩ := exists_eq_succ hbound
  simp only [List.length_cons, List.length_append, List.length_nil] at hbound
  simp only [statementWithin, List.cons_append, List.append_assoc, List.nil_append,
    current_bind_apply, head_cons, skip_bind_apply, List.tail_cons]
  rw [expression_bind_arrow hcondition,
    bind_of_done (blockWithin_stop h (by omega) (by simp) (by simp)), current_bind_apply,
    head_value, nextToken_cons, if_neg (by simp), expect_bind_cons]
  rfl

theorem readBack_branchElse {condition : Node} {consequent alternative : List Node}
    {cs : List (Located Token)} {p q r s : Position}
    (hcondition : (Phrase.expression false condition).ReadBack cs)
    (h : (Phrase.block consequent).ReadBack ts) (hother : (Phrase.block alternative).ReadBack us) :
    (Phrase.statement (.branch (.ofNode condition) consequent (some alternative) p)).ReadBack
      (⟨.branch, p⟩ :: (cs ++ ⟨.arrow, q⟩ :: (ts ++ ⟨.otherwise, r⟩ :: (us ++ [⟨.stop, s⟩])))) := by
  intro bound stop rest hbound _ _
  obtain ⟨b, rfl⟩ := exists_eq_succ hbound
  simp only [List.length_cons, List.length_append, List.length_nil] at hbound
  have hread := h b stop [.otherwise, .stop]
    (⟨.otherwise, r⟩ :: (us ++ ⟨.stop, s⟩ :: rest)) (by omega) (by simp) (Or.inr (by simp))
  simp only [statementWithin, List.cons_append, List.append_assoc, List.nil_append,
    current_bind_apply, head_cons, skip_bind_apply, List.tail_cons]
  rw [expression_bind_arrow hcondition, bind_of_done hread, current_bind_apply, head_value,
    nextToken_cons, if_pos rfl, skip_bind_apply, List.tail_cons,
    bind_of_done (blockWithin_stop hother (by omega) (by simp) (by simp)), expect_bind_cons]
  rfl

theorem readBack_loop {condition : Node} {body : List Node} {cs : List (Located Token)}
    {p q r : Position} (hcondition : (Phrase.expression false condition).ReadBack cs)
    (h : (Phrase.block body).ReadBack ts) :
    (Phrase.statement (.loop (.ofNode condition) body p)).ReadBack
      (⟨.loop, p⟩ :: (cs ++ ⟨.arrow, q⟩ :: (ts ++ [⟨.stop, r⟩]))) := by
  intro bound stop rest hbound _ _
  obtain ⟨b, rfl⟩ := exists_eq_succ hbound
  simp only [List.length_cons, List.length_append, List.length_nil] at hbound
  simp only [statementWithin, List.cons_append, List.append_assoc, List.nil_append,
    current_bind_apply, head_cons, skip_bind_apply, List.tail_cons]
  rw [expression_bind_arrow hcondition,
    bind_of_done (blockWithin_stop h (by omega) (by simp) (by simp)), expect_bind_cons]
  rfl

theorem readBack_definition {name : Name} {parameters : List Name} {body : List Node}
    {ns ps : List (Located Token)} {p q r : Position} (hname : WritesName name ns)
    (hbegins : (Phrase.parameters parameters).Begins (nextToken ps))
    (hps : (Phrase.parameters parameters).ReadBack ps) (h : (Phrase.block body).ReadBack ts) :
    (Phrase.statement (.definition name parameters body p)).ReadBack
      (⟨.define, p⟩ :: (ns ++ (ps ++ ⟨.arrow, q⟩ :: (ts ++ [⟨.stop, r⟩])))) := by
  intro bound stop rest hbound _ _
  obtain ⟨b, rfl⟩ := exists_eq_succ hbound
  simp only [List.length_cons, List.length_append, List.length_nil] at hbound
  have hsymbol : ∀ unit, nextToken
      (ps ++ ⟨.arrow, q⟩ :: (ts ++ ⟨.stop, r⟩ :: rest)) ≠ .symbol unit :=
    not_symbol_of_begins hbegins (by simp)
  simp only [statementWithin, List.cons_append, List.append_assoc, List.nil_append,
    current_bind_apply, head_cons, skip_bind_apply, List.tail_cons]
  rw [bind_of_done (name_of_writesName hname hsymbol),
    bind_of_done (hps b stop _ (by omega) rfl), expect_bind_cons,
    bind_of_done (blockWithin_stop h (by omega) (by simp) (by simp)), expect_bind_cons]
  rfl

theorem readBack_print {value : Node} {p : Position} (hne : us ≠ [])
    (h : (Phrase.expression false value).ReadBack us) :
    (Phrase.statement (.print value p)).ReadBack (⟨.print, p⟩ :: us) := by
  intro bound stop rest hbound hapart hoperator
  obtain ⟨b, rfl⟩ := exists_eq_succ hbound
  rw [Apart, ← List.singleton_append, lastToken_append hne] at hapart
  simp only [statementWithin, List.cons_append, current_bind_apply, head_cons, skip_bind_apply,
    List.tail_cons]
  rw [bind_of_done (expression_of_readBack h hapart hoperator)]
  rfl

theorem readBack_marked {n : Node} (hbegins : nextToken us = .callStart)
    (h : (Phrase.operand false n).ReadBack us) : (Phrase.statement n).ReadBack us := by
  intro bound stop rest hbound hapart _
  obtain ⟨b, rfl⟩ := exists_eq_succ hbound
  obtain ⟨⟨t, p⟩, us, rfl⟩ : ∃ u vs, us = u :: vs := by
    apply List.exists_cons_of_ne_nil
    rintro rfl
    cases hbegins
  cases hbegins
  have hread : operand stop (⟨.callStart, p⟩ :: us ++ rest) = .done n rest := by
    apply h _ stop rest _ hapart
    rw [expressionBound, List.length_append]
    omega
  simpa only [statementWithin, List.cons_append, current_bind_apply, head_cons] using hread

/-- A statement that begins like an expression is one, unless it begins with `🫑`. -/
theorem statementWithin_of_beginsExpression {b : Nat} {t : Token} {p : Position} {stop : Position}
    (hbegins : beginsExpression t = true) (hcall : t ≠ .callStart) :
    statementWithin (b + 1) stop (⟨t, p⟩ :: us) = expression stop (⟨t, p⟩ :: us) := by
  cases t with
  | digit _ | text _ | boolean _ | arrayStart | symbol _ | barrier | index => rfl
  | callStart => exact absurd rfl hcall
  | _ => simp [beginsExpression, beginsOperand, Token.startsOperand] at hbegins

theorem readBack_plain {n : Node} (hcall : nextToken us ≠ .callStart)
    (hbegins : beginsExpression (nextToken us) = true)
    (h : (Phrase.expression false n).ReadBack us) : (Phrase.statement n).ReadBack us := by
  intro bound stop rest hbound hapart hoperator
  obtain ⟨b, rfl⟩ := exists_eq_succ hbound
  obtain ⟨⟨t, p⟩, us, rfl⟩ := List.exists_cons_of_ne_nil
    (ne_nil_of_beginsStatement (beginsStatement_of_expression hbegins))
  rw [nextToken_cons] at hcall hbegins
  rw [List.cons_append, statementWithin_of_beginsExpression hbegins hcall, ← List.cons_append]
  exact expression_of_readBack h hapart hoperator

theorem readBack_noStatements : (Phrase.block []).ReadBack [] := by
  intro bound stop closing rest hbound _ hclose
  obtain ⟨b, rfl⟩ := exists_eq_succ hbound
  rw [blockWithin, current_bind_apply, List.nil_append, head_value, if_pos hclose]
  rfl

theorem readBack_statement {n : Node} {ns : List Node}
    (hbegins : beginsStatement (nextToken ts) = true)
    (hmore : (Phrase.block ns).Begins (nextToken us)) (hapart : Apart false ts us)
    (h : (Phrase.statement n).ReadBack ts) (hs : (Phrase.block ns).ReadBack us) :
    (Phrase.block (n :: ns)).ReadBack (ts ++ us) := by
  intro bound stop closing rest hbound hclosing hclose
  obtain ⟨b, rfl⟩ := exists_eq_succ hbound
  have hne : ts ≠ [] := ne_nil_of_beginsStatement hbegins
  have hpos : 0 < ts.length := List.length_pos_iff.mpr hne
  rw [List.length_append] at hbound
  have hends : ∀ t, t = .endOfInput ∨ t ∈ closing →
      t = .endOfInput ∨ t = .otherwise ∨ t = .stop := by
    rintro t (rfl | ht)
    · exact Or.inl rfl
    · exact Or.inr (by simpa using hclosing ht)
  have hopen : ¬(nextToken ts = .endOfInput ∨ nextToken ts ∈ closing) := by
    intro hend
    rcases hends _ hend with heq | heq | heq <;> rw [heq] at hbegins <;>
      exact absurd hbegins (by decide)
  have hoperand : beginsOperand (nextToken rest) = false := by
    rcases hends _ hclose with heq | heq | heq <;> rw [heq] <;> rfl
  have hoperator : ∀ op, nextToken (us ++ rest) ≠ .operator op := by
    cases us with
    | nil => rcases hends _ hclose with heq | heq | heq <;> simp [heq]
    | cons u us =>
        rcases hmore with heq | heq
        · rw [List.cons_append, nextToken_cons]
          rw [nextToken_cons] at heq
          simp [heq]
        · exact not_operator_of_beginsStatement heq
  rw [blockWithin, current_bind_apply, head_value, List.append_assoc, nextToken_append hne,
    if_neg hopen,
    bind_of_done (h b stop (us ++ rest) (by omega) (hapart.append hoperand) hoperator),
    bind_of_done (hs b stop closing rest (by omega) hclosing hclose)]
  rfl

/-! ## Phrases -/

/-- **Completeness.** Whatever writes a phrase is read as it. -/
theorem Written.readBack {φ : Phrase} {ts : List (Located Token)} (h : Written φ ts) :
    φ.ReadBack ts := by
  induction h with
  | number written bounded => exact readBack_number written bounded
  | text value p =>
      intro bound stop rest hbound _
      obtain ⟨b, rfl⟩ := exists_eq_succ hbound
      rfl
  | boolean value p =>
      intro bound stop rest hbound _
      obtain ⟨b, rfl⟩ := exists_eq_succ hbound
      rfl
  | reference written => exact readBack_reference written
  | array p q _ ih => exact readBack_array ih
  | namedCall q r named _ ih => exact readBack_namedCall named ih
  | markedCall p q r named _ ih => exact readBack_markedCall named ih
  | group p q _ ih => exact readBack_group ih
  | first _ ih => exact readBack_first ih
  | joined p _ right takes ihl ihr => exact readBack_joined right.operand_ne_nil ihl ihr takes
  | negated p _ ih => exact readBack_negated ih
  | index p written bounded => exact readBack_index written bounded
  | ofChain written ih => exact readBack_ofChain written.begins ih
  | noItems => exact readBack_noItems
  | comma p _ ih => exact readBack_comma ih
  | item written more apart ih ihs =>
      exact readBack_item written.begins more.begins apart ih ihs
  | noParameters => exact readBack_noParameters
  | parameter p named more ih => exact readBack_parameter named more.begins ih
  | declaration p q named written ih =>
      exact readBack_declaration named written.expression_ne_nil ih
  | assignment p q named written ih =>
      exact readBack_assignment named written.expression_ne_nil ih
  | branch p q r _ _ ihc ih => exact readBack_branch ihc ih
  | branchElse p q r s _ _ _ ihc ih iho => exact readBack_branchElse ihc ih iho
  | loop p q r _ _ ihc ih => exact readBack_loop ihc ih
  | definition p q r named listed _ ihp ih =>
      exact readBack_definition named listed.begins ihp ih
  | print p written ih => exact readBack_print written.expression_ne_nil ih
  | marked begins _ ih => exact readBack_marked begins ih
  | plain begins written ih => exact readBack_plain begins written.begins ih
  | noStatements => exact readBack_noStatements
  | statement written more apart ih ihs =>
      exact readBack_statement written.begins more.begins apart ih ihs

/-! ## Programs -/

/-- Statements are read from just those tokens that write them as a block. -/
theorem statements_eq_done_iff {stop : Position} {ts : List (Located Token)} {ns : List Node}
    (hts : ∀ t ∈ ts, t.value ≠ .endOfInput) :
    (∃ rest, statements stop ts = .done ns rest) ↔ Written (.block ns) ts := by
  constructor
  · rintro ⟨rest, h⟩
    obtain ⟨us, rfl, hwritten, hend⟩ := written_blockWithin _ _ _ _ _ h
    cases rest with
    | nil => rwa [List.append_nil]
    | cons t rest =>
        rcases hend with hend | hend
        · exact absurd hend (hts t (by simp))
        · simp at hend
  · intro h
    refine ⟨[], ?_⟩
    have hread := h.readBack (blockBound ts) stop [] [] (Nat.le_refl _) (by simp) (Or.inl rfl)
    rwa [List.append_nil] at hread

end Grammar

/-- **Exactness.** A program is read from a text just when the tokens of the text
write its statements, at the position of the first token. -/
theorem Program.ofSource_eq_ok_iff {source : String} {p : Program} :
    Program.ofSource source = .ok p ↔
      Grammar.Written (.block p.statements) (tokenize source).items ∧
      p.position = (Reading.head (tokenize source).stop (tokenize source).items).position := by
  have hends := tokenize_ne_endOfInput source
  constructor
  · intro h
    rw [ofSource, ofTokens] at h
    split at h
    · next ns hns =>
      cases h
      obtain ⟨rest, hread⟩ := Outcome.settle_eq_ok_iff.mp hns
      exact ⟨(Grammar.statements_eq_done_iff hends).mp ⟨rest, hread⟩, rfl⟩
    · cases h
  · rintro ⟨hwritten, hposition⟩
    obtain ⟨rest, hread⟩ := (Grammar.statements_eq_done_iff hends).mpr hwritten
    rw [ofSource, ofTokens, Outcome.settle_eq_ok_iff.mpr ⟨rest, hread⟩, ← hposition]

end Pictoscript
