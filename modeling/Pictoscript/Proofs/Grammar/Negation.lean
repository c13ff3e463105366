import Pictoscript.Proofs.Grammar.Enclosed

/-! # The operand behind a negation

A `🚫` takes the operand behind it, if there is one. Whether there is one is told by the
next token alone, before any reader has looked at it, and the test knows all tokens that
an operand begins with but one: a call may also begin with `🫑`. So a negation takes
whatever operand is written behind it, except a call that begins with `🫑`. That call
becomes a statement of its own.
-/

namespace Pictoscript

/-- The text is read as one operand, outside of any group and with nothing left over. -/
def ReadsOperand (source : String) (n : Node) : Prop :=
  Grammar.operand (tokenize source).stop (tokenize source).items = .done n []

theorem readsOperand_iff {source : String} {n : Node} :
    ReadsOperand source n ↔ Grammar.Written (.operand false n) (tokenize source).items := by
  constructor
  · intro h
    obtain ⟨us, hus, hwritten, -⟩ := Grammar.written_operandWithin _ _ _ _ _ h
    rwa [hus, List.append_nil]
  · intro h
    have hread := h.readBack (Grammar.expressionBound (tokenize source).items)
      (tokenize source).stop [] (by rw [Grammar.expressionBound]; omega) (Grammar.apart_nil _ _)
    rwa [List.append_nil] at hread

namespace Grammar

variable {ts us : List (Located Token)} {left right : Node}

theorem nextToken_congr (h : ts.map Located.value = us.map Located.value) :
    nextToken ts = nextToken us := by
  rw [← nextToken_relocate (fun _ => .start) ts, ← nextToken_relocate (fun _ => .start) us,
    map_relocate_const h]

/-- Outside of a group a negation runs on into all operands that do not begin with `🫑`. -/
theorem Written.negation_runsOn_iff (h : Written (.operand false right) us) :
    runsOn false (.operator .not) (nextToken us) = true ↔ nextToken us ≠ .callStart := by
  have hbegins : beginsOperand (nextToken us) = true := h.begins
  generalize nextToken us = t at hbegins ⊢
  cases t <;> simp_all [runsOn, negatesLeft, Token.startsOperand, beginsOperand]

/-- The operand behind the negation belongs to it. -/
theorem Written.print_joined (hleft : Written (.operand false left) ts)
    (hright : Written (.operand false right) us) (hcall : nextToken us ≠ .callStart)
    (p q : Position) :
    Written (.block [.print (.expression ⟨left, some .not, some right, false, q⟩ q) p])
      (⟨.print, p⟩ :: (ts ++ ⟨.operator .not, q⟩ :: us)) := by
  have hchain : Written (.chain false (.expression ⟨left, some .not, some right, false, q⟩ q))
      (ts ++ ⟨.operator .not, q⟩ :: us) := by
    refine .joined q (.first hleft) hright fun _ => ?_
    exact hright.negation_runsOn_iff.mpr hcall
  have hblock := Written.statement (.print p (.ofChain hchain)) .noStatements (apart_nil _ _)
  rwa [List.append_nil] at hblock

/-- A call that begins with `🫑` is left to be the next statement. -/
theorem Written.print_negated (hleft : Written (.operand false left) ts)
    (hright : Written (.operand false right) us) (hcall : nextToken us = .callStart)
    (p q : Position) :
    Written (.block [.print (.expression ⟨left, some .not, none, false, q⟩ q) p, right])
      (⟨.print, p⟩ :: (ts ++ ⟨.operator .not, q⟩ :: us)) := by
  have hapart : Apart false (⟨.print, p⟩ :: (ts ++ [⟨.operator .not, q⟩])) us := by
    rw [Apart, lastToken_cons_append_cons, hcall]
    rfl
  have hblock := Written.statement (.print p (.ofChain (.negated q (.first hleft))))
    hright.block_of_operand hapart
  rwa [List.cons_append, List.append_assoc] at hblock

end Grammar

theorem map_value_tokenize_negation {a : String} (ha : ¬EndsInQuotation a) (b : String) :
    (tokenize ("📢 " ++ a ++ " 🚫 " ++ b)).items.map Located.value =
      .print :: ((tokenize a).items.map Located.value ++
        .operator .not :: (tokenize b).items.map Located.value) := by
  have hprint : tokenize "📢" = ⟨[⟨.print, ⟨1, 1⟩⟩], ⟨1, 2⟩⟩ := by decide +kernel
  have hnot : tokenize "🚫" = ⟨[⟨.operator .not, ⟨1, 1⟩⟩], ⟨1, 2⟩⟩ := by decide +kernel
  have hopen : ¬EndsInQuotation "📢" ∧ ¬EndsInQuotation "🚫" := by decide +kernel
  have htext : "📢 " ++ a ++ " 🚫 " ++ b = "📢" ++ " " ++ (a ++ " " ++ ("🚫" ++ " " ++ b)) := by
    apply String.toList_injective
    simp
  rw [htext, map_value_tokenize_append hopen.1, map_value_tokenize_append ha,
    map_value_tokenize_append hopen.2, hprint, hnot]
  rfl

namespace Program

open Grammar

/-- **The operand behind a negation.** Two operands with a negation between them are one
printed expression, in which the second is the right operand of the negation, unless
it is a call that begins with `🫑`. In that case the printed negation has no right
operand and the call is a statement of its own. -/
theorem ofSource_negation {a b : String} {m n : Node} (ha : ReadsOperand a m)
    (hb : ReadsOperand b n) :
    ∃ p, ofSource ("📢 " ++ a ++ " 🚫 " ++ b) = .ok p ∧
      eraseNodes p.statements =
        if nextToken (tokenize b).items = .callStart then
          [.print (.expression ⟨m.erase, some .not, none, false, .start⟩ .start) .start, n.erase]
        else
          [.print (.expression ⟨m.erase, some .not, some n.erase, false, .start⟩ .start)
            .start] := by
  have hvalues := map_value_tokenize_negation
    (not_endsInQuotation (readsOperand_iff.mp ha).ne_illegal) b
  obtain ⟨p, ts, htokens, hts⟩ := Canonical.located_cons hvalues
  obtain ⟨us, q, vs, rfl, hus, hvs⟩ := Canonical.located_append_cons hts
  obtain ⟨left, hleft, hleftWritten⟩ := (readsOperand_iff.mp ha).exists_moved hus
  obtain ⟨right, hright, hrightWritten⟩ := (readsOperand_iff.mp hb).exists_moved hvs
  rw [← nextToken_congr hvs, ← hleft, ← hright]
  split
  · next hcall =>
    have hblock := hleftWritten.print_negated hrightWritten hcall p q
    rw [← htokens] at hblock
    exact ⟨⟨_, _⟩, ofSource_eq_ok_iff.mpr ⟨hblock, rfl⟩, rfl⟩
  · next hcall =>
    have hblock := hleftWritten.print_joined hrightWritten hcall p q
    rw [← htokens] at hblock
    exact ⟨⟨_, _⟩, ofSource_eq_ok_iff.mpr ⟨hblock, rfl⟩, rfl⟩

/-- A group on the left, and on the right a call that begins with its name. -/
theorem ofSource_negation_group :
    ReadsOperand "🚧 ✅ 🚫 🚧" (.expression
        ⟨.boolean true ⟨1, 3⟩, some .not, none, true, ⟨1, 5⟩⟩ ⟨1, 1⟩) ∧
      ReadsOperand "🍉 🫑 🍴" (.call ⟨"🍉", ⟨1, 1⟩⟩ [] ⟨1, 1⟩) ∧
      ∃ p, ofSource ("📢 " ++ "🚧 ✅ 🚫 🚧" ++ " 🚫 " ++ "🍉 🫑 🍴") = .ok p ∧
        eraseNodes p.statements =
          [.print (.expression
            ⟨.expression ⟨.boolean true .start, some .not, none, true, .start⟩ .start, some .not,
              some (.call ⟨"🍉", .start⟩ [] .start), false, .start⟩ .start) .start] := by
  have hgroup : tokenize "🚧 ✅ 🚫 🚧" =
      ⟨[⟨.barrier, ⟨1, 1⟩⟩, ⟨.boolean true, ⟨1, 3⟩⟩, ⟨.operator .not, ⟨1, 5⟩⟩,
        ⟨.barrier, ⟨1, 7⟩⟩], ⟨1, 8⟩⟩ := by decide +kernel
  have hcall : tokenize "🍉 🫑 🍴" =
      ⟨[⟨.symbol "🍉", ⟨1, 1⟩⟩, ⟨.callStart, ⟨1, 3⟩⟩, ⟨.callEnd, ⟨1, 5⟩⟩], ⟨1, 6⟩⟩ := by
    decide +kernel
  have hleft : ReadsOperand "🚧 ✅ 🚫 🚧" (.expression
      ⟨.boolean true ⟨1, 3⟩, some .not, none, true, ⟨1, 5⟩⟩ ⟨1, 1⟩) := by
    rw [ReadsOperand, hgroup]
    rfl
  have hright : ReadsOperand "🍉 🫑 🍴" (.call ⟨"🍉", ⟨1, 1⟩⟩ [] ⟨1, 1⟩) := by
    rw [ReadsOperand, hcall]
    rfl
  obtain ⟨p, hp, hstatements⟩ := ofSource_negation hleft hright
  rw [hcall, if_neg (by decide)] at hstatements
  exact ⟨hleft, hright, p, hp, hstatements⟩

/-- The same call that begins with `🫑` is no operand of the negation. -/
theorem ofSource_negation_marked :
    ReadsOperand "✅" (.boolean true ⟨1, 1⟩) ∧
      ReadsOperand "🫑 🍉 👉 🍴" (.call ⟨"🍉", ⟨1, 3⟩⟩ [] ⟨1, 1⟩) ∧
      ∃ p, ofSource "📢 ✅ 🚫 🫑 🍉 👉 🍴" = .ok p ∧ p.statements =
        [.print (.expression ⟨.boolean true ⟨1, 3⟩, some .not, none, false, ⟨1, 5⟩⟩ ⟨1, 5⟩) ⟨1, 1⟩,
          .call ⟨"🍉", ⟨1, 9⟩⟩ [] ⟨1, 7⟩] := by
  have hleft : tokenize "✅" = ⟨[⟨.boolean true, ⟨1, 1⟩⟩], ⟨1, 2⟩⟩ := by decide +kernel
  have hright : tokenize "🫑 🍉 👉 🍴" =
      ⟨[⟨.callStart, ⟨1, 1⟩⟩, ⟨.symbol "🍉", ⟨1, 3⟩⟩, ⟨.arrow, ⟨1, 5⟩⟩, ⟨.callEnd, ⟨1, 7⟩⟩],
        ⟨1, 8⟩⟩ := by decide +kernel
  have hwhole : tokenize "📢 ✅ 🚫 🫑 🍉 👉 🍴" =
      ⟨[⟨.print, ⟨1, 1⟩⟩, ⟨.boolean true, ⟨1, 3⟩⟩, ⟨.operator .not, ⟨1, 5⟩⟩,
        ⟨.callStart, ⟨1, 7⟩⟩, ⟨.symbol "🍉", ⟨1, 9⟩⟩, ⟨.arrow, ⟨1, 11⟩⟩, ⟨.callEnd, ⟨1, 13⟩⟩],
        ⟨1, 14⟩⟩ := by decide +kernel
  refine ⟨?_, ?_, ⟨_, ⟨1, 1⟩⟩, ?_, rfl⟩
  · rw [ReadsOperand, hleft]
    rfl
  · rw [ReadsOperand, hright]
    rfl
  · rw [ofSource, hwhole]
    rfl

end Program

end Pictoscript
