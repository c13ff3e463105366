import Pictoscript.Proofs.Grammar.Complete
import Pictoscript.Proofs.Lexing.Concatenation
import Pictoscript.Proofs.Relocation
import Pictoscript.Proofs.Shape

/-! # Programs one after the other

Nothing separates statements, so two texts that are programs each make a program
of both only if the end of the first does not merge with the beginning of the
second. Four pairs of tokens merge: two symbols are one name, a symbol and `🫑`
are the start of a call, two digits are one number, and what can be an operand
behind a `🚫` is its right operand. No other pair does, and the condition is
exact: where tokens merge, the statements read are not those of the two programs.

For the latter the two programs have to be told apart in the tree of both. Their
positions do that: a statement begins at a position that can be read off from its
tree, and no two tokens share one.
-/

namespace Pictoscript

/-! ## Where a statement begins -/

mutual
/-- The position of the first token of a node. An operation without barriers
stands at its operator and begins with its left operand. -/
def Node.start : Node → Position
  | .expression content p => if content.grouped then p else content.start
  | .number _ p | .text _ p | .boolean _ p | .variable _ p | .array _ p
  | .declaration _ _ p | .assignment _ _ p | .branch _ _ _ p | .loop _ _ p
  | .definition _ _ _ p | .call _ _ p | .index _ p | .print _ p => p
def Expression.start : Expression → Position
  | ⟨left, _, _, _, _⟩ => left.start
end

namespace Grammar

/-- The position of a phrase's first token, where the tree tells it. -/
def Phrase.BeginsAt : Phrase → Option Position → Prop
  | .operand _ n, p | .chain _ n, p | .expression _ n, p | .statement n, p => p = some n.start
  | .block ns, p => p = ns.head?.map Node.start
  | .items .., _ | .parameters _, _ => True

theorem head?_append_of_some {ts us : List (Located Token)} {p : Position}
    (h : ts.head?.map Located.position = some p) :
    (ts ++ us).head?.map Located.position = some p := by
  cases ts with
  | nil => cases h
  | cons t ts => exact h

theorem Written.beginsAt {φ : Phrase} {ts : List (Located Token)} (h : Written φ ts) :
    φ.BeginsAt (ts.head?.map Located.position) := by
  induction h with
  | number written _ => exact written.start
  | reference written => exact written.start
  | namedCall q r named _ _ => exact head?_append_of_some named.start
  | group p q _ _ =>
      rw [Phrase.BeginsAt, Node.start, Expression.grouped_group]
      rfl
  | first _ ih => exact ih
  | joined p _ _ _ ih _ => exact head?_append_of_some ih
  | negated p _ ih => exact head?_append_of_some ih
  | ofChain _ ih => exact ih
  | noItems => trivial
  | comma p _ _ => trivial
  | item _ _ _ _ _ => trivial
  | noParameters => trivial
  | parameter p _ _ _ => trivial
  | marked _ _ ih => exact ih
  | plain _ _ ih => exact ih
  | statement _ _ _ ih _ => exact head?_append_of_some ih
  | _ => rfl

/-! ## Blocks one after the other -/

theorem apart_of_nil {g : Bool} (us : List (Located Token)) : Apart g [] us :=
  apart_of_lastToken .endOfInput rfl fun _ => rfl

/-- A block and a block behind it are one block. -/
theorem Written.block_append {ps qs : List Node} {ts us : List (Located Token)}
    (hp : Written (.block ps) ts) (hq : Written (.block qs) us) (h : Apart false ts us) :
    Written (.block (ps ++ qs)) (ts ++ us) := by
  induction ps generalizing ts with
  | nil =>
      cases hp
      exact hq
  | cons n ps ih =>
      cases hp with
      | @statement _ _ ts₁ ts₂ written more apart =>
          rw [List.append_assoc]
          cases ts₂ with
          | nil =>
              rw [List.append_nil] at h
              exact .statement written (ih more (apart_of_nil us)) h
          | cons t ts₂ =>
              rw [Apart, lastToken_append_cons] at h
              exact .statement written (ih more h) apart

/-- A block can be cut between any two of its statements. -/
theorem Written.block_split {ps qs : List Node} {zs : List (Located Token)}
    (h : Written (.block (ps ++ qs)) zs) :
    ∃ ts us, zs = ts ++ us ∧ Written (.block ps) ts ∧ Written (.block qs) us ∧
      Apart false ts us := by
  induction ps generalizing zs with
  | nil => exact ⟨[], zs, rfl, .noStatements, h, apart_of_nil zs⟩
  | cons n ps ih =>
      rw [List.cons_append] at h
      cases h with
      | @statement _ _ ts₁ zs₂ written more apart =>
          obtain ⟨ts₂, us, rfl, hp, hq, hapart⟩ := ih more
          refine ⟨ts₁ ++ ts₂, us, (List.append_assoc ..).symm,
            .statement written hp apart.of_append, hq, ?_⟩
          cases ts₂ with
          | nil => rwa [List.append_nil]
          | cons t ts₂ =>
              rw [Apart, lastToken_append_cons]
              exact hapart

/-! ## Cutting at a position -/

/-- If no two tokens share a position, there is at most one place to cut at. -/
theorem eq_of_append_eq {ts us ts' us' : List (Located Token)}
    (hpositions : (ts ++ us).Pairwise fun s t => s.position < t.position)
    (h : ts ++ us = ts' ++ us')
    (hhead : us.head?.map Located.position = us'.head?.map Located.position) :
    ts = ts' := by
  -- What lies between two cuts would begin where the rest behind it begins, too.
  have hbetween : ∀ {ws vs : List (Located Token)},
      (ws ++ vs).Pairwise (fun s t => s.position < t.position) →
      (ws ++ vs).head?.map Located.position = vs.head?.map Located.position → ws = [] := by
    intro ws vs hpairwise hsame
    cases ws with
    | nil => rfl
    | cons w ws =>
        cases vs with
        | nil => cases hsame
        | cons v vs =>
            have hlt : w.position < v.position :=
              (List.pairwise_cons.mp hpairwise).1 v (by simp)
            have heq : w.position = v.position := Option.some.inj hsame
            exact absurd heq hlt.ne
  rcases List.append_eq_append_iff.mp h with ⟨ws, hts, hus⟩ | ⟨ws, hts, hus⟩
  · have hright := (List.pairwise_append.mp hpositions).2.1
    rw [hus] at hright hhead
    rw [hts, hbetween hright hhead, List.append_nil]
  · rw [h] at hpositions
    have hright := (List.pairwise_append.mp hpositions).2.1
    rw [hus] at hright hhead
    rw [hts, hbetween hright hhead.symm, List.append_nil]

/-! ## Tokens that merge -/

/-- The pairs of tokens that belong together when they stand side by side. -/
inductive Merges : Token → Token → Prop where
  | name (s t : String) : Merges (.symbol s) (.symbol t)
  | call (s : String) : Merges (.symbol s) .callStart
  | number (m n : Nat) : Merges (.digit m) (.digit n)
  | operand {t : Token} (starts : t.startsOperand = true) : Merges (.operator .not) t

theorem merges_iff {s t : Token} : Merges s t ↔ runsOn false s t = true := by
  constructor
  · rintro (_ | _ | _ | starts)
    · rfl
    · rfl
    · rfl
    · simp [runsOn, negatesLeft, starts]
  · intro h
    unfold runsOn at h
    split at h
    · exact .name _ _
    · exact .call _
    · exact .number _ _
    · exact .operand (by simpa [negatesLeft] using h)
    · cases h

/-- Outside groups tokens are apart if the pair where they meet does not merge. -/
theorem apart_iff_not_merges {ts us : List (Located Token)} :
    Apart false ts us ↔ ∀ s ∈ ts.getLast?, ∀ t ∈ us.head?, ¬Merges s.value t.value := by
  simp only [merges_iff, Bool.not_eq_true]
  cases us with
  | nil => simp [apart_nil]
  | cons u us =>
      rw [Apart, lastToken, List.getLast?_map]
      cases ts.getLast? with
      | none => simp [runsOn]
      | some s => simp

/-! ## The tokens of a phrase -/

theorem ne_illegal_of_map {α : Type} {f : α → Token} {xs : List α} {ts : List (Located Token)}
    (hmap : ts.map Located.value = xs.map f) (hf : ∀ x unit, f x ≠ .illegal unit) :
    ∀ t ∈ ts, ∀ unit, t.value ≠ .illegal unit := by
  intro t ht unit
  have hmem : t.value ∈ xs.map f := hmap ▸ List.mem_map_of_mem ht
  obtain ⟨x, -, hx⟩ := List.mem_map.mp hmem
  exact hx ▸ hf x unit

theorem WritesName.ne_illegal {name : Name} {ts : List (Located Token)} (h : WritesName name ts) :
    ∀ t ∈ ts, ∀ unit, t.value ≠ .illegal unit := by
  obtain ⟨⟨units, -, hmap, -⟩, -⟩ := h
  exact ne_illegal_of_map hmap (by simp)

theorem WritesNumber.ne_illegal {value : Nat} {p : Position} {ts : List (Located Token)}
    (h : WritesNumber value p ts) : ∀ t ∈ ts, ∀ unit, t.value ≠ .illegal unit := by
  obtain ⟨⟨values, -, hmap, -⟩, -⟩ := h
  exact ne_illegal_of_map hmap (by simp)

/-- No phrase is written with illegal tokens. -/
theorem Written.ne_illegal {φ : Phrase} {ts : List (Located Token)} (h : Written φ ts) :
    ∀ t ∈ ts, ∀ unit, t.value ≠ .illegal unit := by
  induction h with
  | number written _ => exact written.ne_illegal
  | reference written => exact written.ne_illegal
  | index p written _ => simpa using written.ne_illegal
  | namedCall q r named _ ih => have hname := named.ne_illegal; grind
  | markedCall p q r named _ ih => have hname := named.ne_illegal; grind
  | parameter p named _ ih => have hname := named.ne_illegal; grind
  | declaration p q named _ ih => have hname := named.ne_illegal; grind
  | assignment p q named _ ih => have hname := named.ne_illegal; grind
  | definition p q r named _ _ ihp ih => have hname := named.ne_illegal; grind
  | _ => grind

end Grammar

/-! ## Texts one after the other -/

namespace Program

open Grammar

variable {a b : String} {p q : Program}

/-- The tokens of a program with a further line of text behind it. -/
theorem tokenize_append_line (ha : ofSource a = .ok p) (b : String) :
    (tokenize (a ++ "\n" ++ b)).items = (tokenize a).items ++
      (tokenize b).items.map (Located.relocate (Position.down (a.toList.count '\n' + 1))) := by
  have hwritten := (ofSource_eq_ok_iff.mp ha).1
  have hopen : ¬EndsInQuotation a := not_endsInQuotation hwritten.ne_illegal
  have hstop : (tokenize a).stop.line = 1 + a.toList.count '\n' := by
    rw [tokenize_eq, Cursor.stop_tokens, Cursor.finish, Position.line_foldl_advance]
    rfl
  have hcursor : (⟨b.toList, (tokenize a).stop.advance '\n'⟩ : Cursor) =
      (Cursor.ofText b).down (a.toList.count '\n' + 1) := by
    rw [Position.advance_newline, hstop, Cursor.ofText, Cursor.down, Position.down, Position.start]
    simp only [Cursor.mk.injEq, Position.mk.injEq, true_and, and_true]
    omega
  have happend := tokenize_append (b := b) (by decide : isBlank '\n' = true) hopen
  rw [hcursor, Cursor.items_tokens_down, ← tokenize_eq] at happend
  exact happend

/-- **Sequencing.** A program and, on the next line, another one are read as the
statements of the first and then those of the second, moved down, just when no
token at the end of the first merges with one at the beginning of the second. -/
theorem ofSource_sequence (ha : ofSource a = .ok p) (hb : ofSource b = .ok q) :
    (∃ r, ofSource (a ++ "\n" ++ b) = .ok r ∧ r.statements = p.statements ++
        relocateNodes (Position.down (a.toList.count '\n' + 1)) q.statements) ↔
      ∀ s ∈ (tokenize a).items.getLast?, ∀ t ∈ (tokenize b).items.head?,
        ¬Merges s.value t.value := by
  set down := Position.down (a.toList.count '\n' + 1) with hdown
  have htokens := tokenize_append_line ha b
  have hp := (ofSource_eq_ok_iff.mp ha).1
  have hq : Written (.block (relocateNodes down q.statements))
      ((tokenize b).items.map (Located.relocate down)) :=
    (ofSource_eq_ok_iff.mp hb).1.relocate down
  have hapart : Apart false (tokenize a).items ((tokenize b).items.map (Located.relocate down)) ↔
      ∀ s ∈ (tokenize a).items.getLast?, ∀ t ∈ (tokenize b).items.head?,
        ¬Merges s.value t.value := by
    rw [← apart_iff_not_merges, Apart, Apart, nextToken_relocate]
  rw [← hapart]
  constructor
  · rintro ⟨r, hr, hstatements⟩
    have hblock := (ofSource_eq_ok_iff.mp hr).1
    rw [hstatements, htokens] at hblock
    obtain ⟨ts, us, heq, hts, hus, htsus⟩ := hblock.block_split
    have hpositions := pairwise_tokenize (a ++ "\n" ++ b)
    rw [htokens] at hpositions
    have hcut : (tokenize a).items = ts := eq_of_append_eq hpositions heq
      (hq.beginsAt.trans hus.beginsAt.symm)
    rw [← hcut] at heq htsus
    rwa [List.append_cancel_left heq]
  · intro h
    have hblock := hp.block_append hq h
    rw [← htokens] at hblock
    exact ⟨⟨_, _⟩, ofSource_eq_ok_iff.mpr ⟨hblock, rfl⟩, rfl⟩

/-- A `🚫` does not take the statement on the next line for its operand, while a
name becomes the name of a call. -/
theorem ofSource_sequence_negation_call :
    (∃ r, ofSource ("✅ 🚫" ++ "\n" ++ "🫑 🍇 👉 🍴") = .ok r ∧ r.statements =
      [.expression ⟨.boolean true ⟨1, 1⟩, some .not, none, false, ⟨1, 3⟩⟩ ⟨1, 3⟩,
        .call ⟨"🍇", ⟨2, 3⟩⟩ [] ⟨2, 1⟩]) ∧
    ¬∃ r, ofSource ("🍉" ++ "\n" ++ "🫑 🍇 👉 🍴") = .ok r ∧ r.statements =
      [.variable "🍉" ⟨1, 1⟩, .call ⟨"🍇", ⟨2, 3⟩⟩ [] ⟨2, 1⟩] := by
  have hnegation : tokenize "✅ 🚫" =
      ⟨[⟨.boolean true, ⟨1, 1⟩⟩, ⟨.operator .not, ⟨1, 3⟩⟩], ⟨1, 4⟩⟩ := by
    decide +kernel
  have hname : tokenize "🍉" = ⟨[⟨.symbol "🍉", ⟨1, 1⟩⟩], ⟨1, 2⟩⟩ := by
    decide +kernel
  have hcall : tokenize "🫑 🍇 👉 🍴" =
      ⟨[⟨.callStart, ⟨1, 1⟩⟩, ⟨.symbol "🍇", ⟨1, 3⟩⟩, ⟨.arrow, ⟨1, 5⟩⟩, ⟨.callEnd, ⟨1, 7⟩⟩],
        ⟨1, 8⟩⟩ := by
    decide +kernel
  have readsNegation : ofSource "✅ 🚫" = .ok
      ⟨[.expression ⟨.boolean true ⟨1, 1⟩, some .not, none, false, ⟨1, 3⟩⟩ ⟨1, 3⟩], ⟨1, 1⟩⟩ := by
    rw [ofSource, hnegation]
    rfl
  have readsName : ofSource "🍉" = .ok ⟨[.variable "🍉" ⟨1, 1⟩], ⟨1, 1⟩⟩ := by
    rw [ofSource, hname]
    rfl
  have readsCall : ofSource "🫑 🍇 👉 🍴" = .ok ⟨[.call ⟨"🍇", ⟨1, 3⟩⟩ [] ⟨1, 1⟩], ⟨1, 1⟩⟩ := by
    rw [ofSource, hcall]
    rfl
  have hlines : "✅ 🚫".toList.count '\n' = 0 ∧ "🍉".toList.count '\n' = 0 := by decide
  have hallowed := ofSource_sequence readsNegation readsCall
  have hmerged := ofSource_sequence readsName readsCall
  rw [hlines.1, hnegation, hcall] at hallowed
  rw [hlines.2, hname, hcall] at hmerged
  constructor
  · apply hallowed.mpr
    rintro s ⟨rfl⟩ t ⟨rfl⟩ hmerges
    exact absurd (merges_iff.mp hmerges) (by decide)
  · intro h
    exact hmerged.mp h _ rfl _ rfl (.call "🍉")

end Program

end Pictoscript
