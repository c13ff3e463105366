import Pictoscript.Grammar.Program
import Pictoscript.Proofs.Grammar.Written

/-! # What is read is written

Every reader that succeeds has read a phrase: the tokens it consumed write the
tree it returned, and they end where the tokens left over begin. The proofs
follow the readers, by induction on their recursion bound, with a case for each
kind of first token in the order in which the readers ask for it.
-/

namespace Pictoscript

namespace Reading

open Grammar

variable {α β : Type} {stop : Position} {ts rest : List (Located Token)} {b : β}

/-! ## Inversion of single steps -/

theorem head_cons (t : Located Token) : head stop (t :: ts) = t := rfl

theorem current_bind_apply (f : Located Token → Reading β) :
    (current >>= f) stop ts = f (head stop ts) stop ts := rfl

theorem following_bind_apply (f : Token → Reading β) :
    (following >>= f) stop ts = f (head stop ts.tail).value stop ts := rfl

theorem skip_bind_apply (f : Unit → Reading β) :
    (skip >>= f) stop ts = f () stop ts.tail := rfl

theorem pure_eq_done_iff {a n : α} :
    (pure a : Reading α) stop ts = .done n rest ↔ a = n ∧ ts = rest := by
  rw [pure_apply, Outcome.done.injEq]

theorem of_current_bind_eq_done {f : Located Token → Reading β}
    (h : (current >>= f) stop ts = .done b rest) :
    ∃ t p, head stop ts = ⟨t, p⟩ ∧ f ⟨t, p⟩ stop ts = .done b rest :=
  ⟨_, _, rfl, h⟩

/-- A list whose first token is not the end has that token in front. -/
theorem eq_cons_of_head {t : Token} {p : Position} (h : head stop ts = ⟨t, p⟩)
    (ht : t ≠ .endOfInput) : ∃ us, ts = ⟨t, p⟩ :: us := by
  cases ts with
  | nil =>
      cases h
      exact absurd rfl ht
  | cons u us =>
      cases h
      exact ⟨us, rfl⟩

theorem expect_eq_done_iff {wanted : Token} {u : Unit} (hw : wanted ≠ .endOfInput) :
    expect wanted stop ts = .done u rest ↔ ∃ p, ts = ⟨wanted, p⟩ :: rest := by
  constructor
  · intro h
    obtain ⟨t, p, hhead, h⟩ := of_current_bind_eq_done h
    dsimp only at h
    split at h
    · next heq =>
      obtain ⟨us, rfl⟩ := eq_cons_of_head (heq ▸ hhead) hw
      cases h
      exact ⟨p, rfl⟩
    · cases h
  · rintro ⟨p, rfl⟩
    show (if wanted = wanted then skip else _) stop _ = _
    rw [if_pos rfl]
    rfl

/-! ## Runs of symbols and digits -/

/-- The function cuts off the tokens `f a` at the front of a list. -/
structure CutsRun {α : Type} (f : α → Token)
    (run : List (Located Token) → List α × List (Located Token)) : Prop where
  cons : ∀ a p ts, run (⟨f a, p⟩ :: ts) = (a :: (run ts).1, (run ts).2)
  stop : ∀ {ts}, (∀ a, nextToken ts ≠ f a) → run ts = ([], ts)
  ne_end : ∀ a, f a ≠ .endOfInput

theorem cutsRun_symbolRun : CutsRun Token.symbol symbolRun where
  cons _ _ _ := rfl
  stop {ts} h := by
    unfold symbolRun
    split
    · next unit p ts => exact absurd rfl (h unit)
    · rfl
  ne_end := by simp

theorem cutsRun_digitRun : CutsRun Token.digit digitRun where
  cons _ _ _ := rfl
  stop {ts} h := by
    unfold digitRun
    split
    · next digit p ts => exact absurd rfl (h digit)
    · rfl
  ne_end := by simp

/-- What is cut off is a run of the tokens, and no further one comes behind it. -/
theorem CutsRun.split {f : α → Token} {run : List (Located Token) → List α × List (Located Token)}
    (h : CutsRun f run) (ts : List (Located Token)) :
    ∃ us, ts = us ++ (run ts).2 ∧ us.map Located.value = (run ts).1.map f ∧
      ∀ a, nextToken (run ts).2 ≠ f a := by
  induction ts with
  | nil =>
      have hstop : ∀ a, nextToken [] ≠ f a := fun a => (h.ne_end a).symm
      rw [h.stop hstop]
      exact ⟨[], rfl, rfl, hstop⟩
  | cons t ts ih =>
      obtain ⟨value, p⟩ := t
      by_cases hvalue : ∃ a, value = f a
      · obtain ⟨a, rfl⟩ := hvalue
        obtain ⟨us, hts, hmap, hnext⟩ := ih
        rw [h.cons]
        refine ⟨⟨f a, p⟩ :: us, ?_, ?_, hnext⟩
        · rw [List.cons_append, ← hts]
        · rw [List.map_cons, hmap, List.map_cons]
      · have hstop : ∀ a, nextToken (⟨value, p⟩ :: ts) ≠ f a := fun a heq => hvalue ⟨a, heq⟩
        rw [h.stop hstop]
        exact ⟨[], rfl, rfl, hstop⟩

/-- A name that was read is written by a run of symbols that is as long as possible. -/
theorem writesName_of_eq_done {role : NameRole} {n : Name}
    (h : name role stop ts = .done n rest) :
    ∃ us, ts = us ++ rest ∧ WritesName n us ∧ ∀ unit, nextToken rest ≠ .symbol unit := by
  obtain ⟨us, hts, hmap, hnext⟩ := cutsRun_symbolRun.split ts
  rw [name] at h
  split at h
  · cases h
  · next unit units rest' hrun =>
    cases h
    rw [hrun] at hts hmap hnext
    cases us with
    | nil => simp at hmap
    | cons u us =>
        refine ⟨u :: us, hts, ⟨⟨unit :: units, by simp, hmap, rfl⟩, ?_⟩, hnext⟩
        rw [hts]
        rfl

/-- A number that was read is written by a run of digits that is as long as possible. -/
theorem writesNumber_of_eq_done {limit value digit : Nat} {p : Position}
    (hts : ts = ⟨.digit digit, p⟩ :: ts.tail) (h : number limit stop ts = .done value rest) :
    ∃ us, ts = us ++ rest ∧ WritesNumber value p us ∧ value ≤ limit ∧
      ∀ digit, nextToken rest ≠ .digit digit := by
  obtain ⟨us, hsplit, hmap, hnext⟩ := cutsRun_digitRun.split ts
  have hrun : (digitRun ts).1 ≠ [] := by
    rw [hts, digitRun]
    simp
  rw [number_apply] at h
  split at h
  · next hle =>
    cases h
    cases us with
    | nil => exact absurd (by simpa using hmap) hrun
    | cons u us =>
        refine ⟨u :: us, hsplit, ⟨⟨_, hrun, hmap, rfl⟩, ?_⟩, (Nat.le_min.mp hle).1, hnext⟩
        rw [hsplit, List.cons_append, List.cons.injEq] at hts
        rw [hts.1]
        rfl
  · cases h

end Reading

namespace Grammar

open Reading

variable {stop : Position}

/-! ## Expressions -/

theorem written_index {g : Bool} {p : Position} {ts rest : List (Located Token)} {n : Node}
    (h : index stop (⟨.index, p⟩ :: ts) = .done n rest) :
    ∃ us, ⟨.index, p⟩ :: ts = us ++ rest ∧ Written (.expression g n) us ∧ Apart g us rest := by
  rw [index, current_bind_apply, skip_bind_apply, List.tail_cons] at h
  obtain ⟨t, q, hhead, h⟩ := of_current_bind_eq_done h
  dsimp only at h
  split at h
  · next digit =>
    simp only [bind_eq_done_iff, pure_eq_done_iff] at h
    obtain ⟨offset, ts₁, hnumber, rfl, rfl⟩ := h
    obtain ⟨vs, rfl⟩ := eq_cons_of_head hhead (by simp)
    obtain ⟨us, hus, hwrites, hle, hnext⟩ := writesNumber_of_eq_done rfl hnumber
    refine ⟨⟨.index, p⟩ :: us, by rw [hus]; rfl, .index p hwrites hle, ?_⟩
    obtain ⟨digit, vs, rfl⟩ := hwrites.cons
    exact hwrites.apart_iff.mpr hnext
  · cases h

mutual
theorem written_operandWithin : ∀ (bound : Nat) (g : Bool) (ts : List (Located Token)) (n : Node)
    (rest : List (Located Token)), operandWithin bound g stop ts = .done n rest →
    ∃ us, ts = us ++ rest ∧ Written (.operand g n) us ∧ Apart g us rest
  | 0, _, _, _, _, h => by cases h
  | bound + 1, g, ts, n, rest, h => by
      rw [operandWithin] at h
      obtain ⟨t, p, hhead, h⟩ := of_current_bind_eq_done h
      dsimp only at h
      split at h
      · next =>
        obtain ⟨ts, rfl⟩ := eq_cons_of_head hhead (by simp)
        simp only [skip_bind_apply, bind_eq_done_iff, pure_eq_done_iff, expect_eq_done_iff,
          ne_eq, reduceCtorEq, not_false_eq_true, List.tail_cons] at h
        obtain ⟨inner, _, hinner, _, _, ⟨q, rfl⟩, rfl, rfl⟩ := h
        obtain ⟨us, rfl, hwritten, -⟩ := written_expressionWithin bound true _ _ _ hinner
        exact ⟨_, by simp, .group p q hwritten,
          apart_of_lastToken .barrier (by simp) fun _ => rfl⟩
      · next =>
        obtain ⟨ts, rfl⟩ := eq_cons_of_head hhead (by simp)
        simp only [skip_bind_apply, bind_eq_done_iff, pure_eq_done_iff, expect_eq_done_iff,
          ne_eq, reduceCtorEq, not_false_eq_true, List.tail_cons] at h
        obtain ⟨callee, _, hname, _, _, ⟨q, rfl⟩, arguments, _, hitems, _, _, ⟨r, rfl⟩,
          rfl, rfl⟩ := h
        obtain ⟨ns, rfl, hnamed, -⟩ := writesName_of_eq_done hname
        obtain ⟨us, rfl, hwritten⟩ := written_itemsWithin bound g _ _ _ _ hitems
        exact ⟨_, by simp, .markedCall p q r hnamed hwritten,
          apart_of_lastToken .callEnd (by simp) fun _ => rfl⟩
      · next =>
        obtain ⟨ts, rfl⟩ := eq_cons_of_head hhead (by simp)
        simp only [bind_eq_done_iff, pure_eq_done_iff] at h
        obtain ⟨value, _, hnumber, rfl, rfl⟩ := h
        obtain ⟨us, hus, hwrites, hle, hnext⟩ := writesNumber_of_eq_done rfl hnumber
        exact ⟨us, hus, .number hwrites hle, hwrites.apart_iff.mpr hnext⟩
      · next =>
        obtain ⟨ts, rfl⟩ := eq_cons_of_head hhead (by simp)
        simp only [skip_bind_apply, pure_eq_done_iff, List.tail_cons] at h
        obtain ⟨rfl, rfl⟩ := h
        exact ⟨[_], rfl, .text _ p, apart_of_lastToken (.text _) rfl fun _ => rfl⟩
      · next =>
        obtain ⟨ts, rfl⟩ := eq_cons_of_head hhead (by simp)
        simp only [skip_bind_apply, pure_eq_done_iff, List.tail_cons] at h
        obtain ⟨rfl, rfl⟩ := h
        exact ⟨[_], rfl, .boolean _ p, apart_of_lastToken (.boolean _) rfl fun _ => rfl⟩
      · next =>
        obtain ⟨ts, rfl⟩ := eq_cons_of_head hhead (by simp)
        simp only [skip_bind_apply, bind_eq_done_iff, pure_eq_done_iff, expect_eq_done_iff,
          ne_eq, reduceCtorEq, not_false_eq_true, List.tail_cons] at h
        obtain ⟨elements, _, hitems, _, _, ⟨q, rfl⟩, rfl, rfl⟩ := h
        obtain ⟨us, rfl, hwritten⟩ := written_itemsWithin bound g _ _ _ _ hitems
        exact ⟨_, by simp, .array p q hwritten,
          apart_of_lastToken .arrayEnd (by simp) fun _ => rfl⟩
      · next =>
        obtain ⟨callee, _, hname, hbehind⟩ := bind_eq_done_iff.mp h
        obtain ⟨ns, rfl, hnamed, hsymbol⟩ := writesName_of_eq_done hname
        obtain ⟨t, q, hhead, h⟩ := of_current_bind_eq_done hbehind
        dsimp only at h
        split at h
        · next heq =>
          obtain ⟨ts, rfl⟩ := eq_cons_of_head (heq ▸ hhead) (by simp)
          simp only [skip_bind_apply, bind_eq_done_iff, pure_eq_done_iff, expect_eq_done_iff,
            ne_eq, reduceCtorEq, not_false_eq_true, List.tail_cons] at h
          obtain ⟨arguments, _, hitems, _, _, ⟨r, rfl⟩, rfl, rfl⟩ := h
          obtain ⟨us, rfl, hwritten⟩ := written_itemsWithin bound g _ _ _ _ hitems
          exact ⟨_, by simp, .namedCall q r hnamed hwritten,
            apart_of_lastToken .callEnd (by simp) fun _ => rfl⟩
        · next hcall =>
          obtain ⟨rfl, rfl⟩ := pure_eq_done_iff.mp h
          refine ⟨ns, rfl, .reference hnamed, hnamed.apart_iff.mpr ⟨hsymbol, ?_⟩⟩
          rwa [← head_value stop, hhead]
      · cases h
theorem written_chainWithin : ∀ (bound : Nat) (g : Bool) (left : Node)
    (ts : List (Located Token)) (n : Node) (rest us : List (Located Token)),
    chainWithin bound g left stop ts = .done n rest →
    Written (.chain g left) us → Apart g us ts →
    ∃ vs, ts = vs ++ rest ∧ Written (.chain g n) (us ++ vs) ∧ Apart g (us ++ vs) rest
  | 0, _, _, _, _, _, _, h, _, _ => by cases h
  | bound + 1, g, left, ts, n, rest, us, h, hleft, hapart => by
      rw [chainWithin] at h
      obtain ⟨t, p, hhead, h⟩ := of_current_bind_eq_done h
      dsimp only at h
      split at h
      · next op =>
        obtain ⟨ts, rfl⟩ := eq_cons_of_head hhead (by simp)
        rw [following_bind_apply, skip_bind_apply, List.tail_cons, head_value] at h
        split at h
        · next hnot =>
          obtain ⟨rfl, hnegates⟩ := hnot
          have hend : Apart g (us ++ [⟨.operator .not, p⟩]) ts := by
            simp [Apart, runsOn, hnegates]
          obtain ⟨vs, rfl, hwritten, hapart⟩ :=
            written_chainWithin bound g _ _ _ _ _ h (.negated p hleft) hend
          rw [List.append_assoc] at hwritten hapart
          exact ⟨_, rfl, hwritten, hapart⟩
        · next hnot =>
          obtain ⟨right, behind, hright, hchain⟩ := bind_eq_done_iff.mp h
          obtain ⟨vs, rfl, hwritten, hend⟩ := written_operandWithin bound g _ _ _ hright
          have hne : vs ≠ [] := hwritten.operand_ne_nil
          have htakes : op = .not → runsOn g (.operator .not) (nextToken vs) = true := by
            intro hop
            rw [nextToken_append hne] at hnot
            simpa [runsOn, hop] using hnot
          have hend' : Apart g (us ++ ⟨.operator op, p⟩ :: vs) behind := by
            rw [Apart, lastToken_append_cons, ← List.singleton_append, lastToken_append hne]
            exact hend
          obtain ⟨ws, rfl, hwritten, hapart⟩ :=
            written_chainWithin bound g _ _ _ _ _ hchain (.joined p hleft hwritten htakes) hend'
          rw [List.append_assoc] at hwritten hapart
          exact ⟨_, by simp, hwritten, hapart⟩
      · obtain ⟨rfl, rfl⟩ := pure_eq_done_iff.mp h
        exact ⟨[], rfl, by rwa [List.append_nil], by rwa [List.append_nil]⟩
theorem written_expressionWithin : ∀ (bound : Nat) (g : Bool) (ts : List (Located Token))
    (n : Node) (rest : List (Located Token)), expressionWithin bound g stop ts = .done n rest →
    ∃ us, ts = us ++ rest ∧ Written (.expression g n) us ∧ Apart g us rest
  | 0, _, _, _, _, h => by cases h
  | bound + 1, g, ts, n, rest, h => by
      rw [expressionWithin] at h
      obtain ⟨t, p, hhead, h⟩ := of_current_bind_eq_done h
      dsimp only at h
      split at h
      · next heq =>
        obtain ⟨ts, rfl⟩ := eq_cons_of_head (heq ▸ hhead) (by simp)
        exact written_index h
      · obtain ⟨left, _, hoperand, hchain⟩ := bind_eq_done_iff.mp h
        obtain ⟨us, rfl, hleft, hend⟩ := written_operandWithin bound g _ _ _ hoperand
        obtain ⟨vs, rfl, hwritten, hapart⟩ :=
          written_chainWithin bound g _ _ _ _ _ hchain (.first hleft) hend
        exact ⟨us ++ vs, by simp, .ofChain hwritten, hapart⟩
theorem written_itemsWithin : ∀ (bound : Nat) (g : Bool) (close : Token)
    (ts : List (Located Token)) (ns : List Node) (rest : List (Located Token)),
    itemsWithin bound g close stop ts = .done ns rest →
    ∃ us, ts = us ++ rest ∧ Written (.items g ns) us
  | 0, _, _, _, _, _, h => by cases h
  | bound + 1, g, close, ts, ns, rest, h => by
      rw [itemsWithin] at h
      obtain ⟨t, p, hhead, h⟩ := of_current_bind_eq_done h
      dsimp only at h
      split at h
      · obtain ⟨rfl, rfl⟩ := pure_eq_done_iff.mp h
        exact ⟨[], rfl, .noItems⟩
      · split at h
        · next heq =>
          obtain ⟨ts, rfl⟩ := eq_cons_of_head (heq ▸ hhead) (by simp)
          obtain ⟨us, hus, hwritten⟩ := written_itemsWithin bound g close _ _ _ h
          rw [List.tail_cons] at hus
          exact ⟨⟨.comma, p⟩ :: us, by rw [hus]; rfl, .comma p hwritten⟩
        · simp only [bind_eq_done_iff, pure_eq_done_iff] at h
          obtain ⟨item, _, hitem, more, _, hmore, rfl, rfl⟩ := h
          obtain ⟨us, rfl, hwritten, hend⟩ := written_expressionWithin bound g _ _ _ hitem
          obtain ⟨vs, rfl, hrest⟩ := written_itemsWithin bound g close _ _ _ hmore
          exact ⟨us ++ vs, by simp, .item hwritten hrest hend.of_append⟩
end

/-! ## Statements -/

theorem written_expression {ts rest : List (Located Token)} {n : Node}
    (h : expression stop ts = .done n rest) :
    ∃ us, ts = us ++ rest ∧ Written (.expression false n) us ∧ Apart false us rest :=
  written_expressionWithin _ false ts n rest h

theorem written_parametersWithin : ∀ (bound : Nat) (ts : List (Located Token))
    (names : List Name) (rest : List (Located Token)),
    parametersWithin bound stop ts = .done names rest →
    ∃ us, ts = us ++ rest ∧ Written (.parameters names) us
  | 0, _, _, _, h => by cases h
  | bound + 1, ts, names, rest, h => by
      rw [parametersWithin] at h
      obtain ⟨t, p, hhead, h⟩ := of_current_bind_eq_done h
      dsimp only at h
      split at h
      · next heq =>
        obtain ⟨ts, rfl⟩ := eq_cons_of_head (heq ▸ hhead) (by simp)
        simp only [skip_bind_apply, bind_eq_done_iff, pure_eq_done_iff, List.tail_cons] at h
        obtain ⟨parameter, _, hname, names, _, hmore, rfl, rfl⟩ := h
        obtain ⟨us, rfl, hnamed, -⟩ := writesName_of_eq_done hname
        obtain ⟨vs, rfl, hwritten⟩ := written_parametersWithin bound _ _ _ hmore
        exact ⟨⟨.comma, p⟩ :: (us ++ vs), by simp, .parameter p hnamed hwritten⟩
      · obtain ⟨rfl, rfl⟩ := pure_eq_done_iff.mp h
        exact ⟨[], rfl, .noParameters⟩

/-- A statement that consists of more than an expression ends like its last part. -/
theorem Apart.cons_append_cons {g : Bool} {t u : Located Token}
    {ts us rest : List (Located Token)} (h : Apart g us rest) (hne : us ≠ []) :
    Apart g (t :: (ts ++ u :: us)) rest := by
  rw [Apart, lastToken_cons_append_cons, ← List.singleton_append, lastToken_append hne]
  exact h

mutual
theorem written_statementWithin : ∀ (bound : Nat) (ts : List (Located Token)) (n : Node)
    (rest : List (Located Token)), statementWithin bound stop ts = .done n rest →
    ∃ us, ts = us ++ rest ∧ Written (.statement n) us ∧ Apart false us rest
  | 0, _, _, _, h => by cases h
  | bound + 1, ts, n, rest, h => by
      rw [statementWithin] at h
      obtain ⟨t, p, hhead, h⟩ := of_current_bind_eq_done h
      dsimp only at h
      split at h
      · next =>
        obtain ⟨ts, rfl⟩ := eq_cons_of_head hhead (by simp)
        simp only [skip_bind_apply, bind_eq_done_iff, pure_eq_done_iff, expect_eq_done_iff,
          ne_eq, reduceCtorEq, not_false_eq_true, List.tail_cons] at h
        obtain ⟨declared, _, hname, _, _, ⟨q, rfl⟩, value, _, hvalue, rfl, rfl⟩ := h
        obtain ⟨ns, rfl, hnamed, -⟩ := writesName_of_eq_done hname
        obtain ⟨us, rfl, hwritten, hend⟩ := written_expression hvalue
        exact ⟨_, by simp, .declaration p q hnamed hwritten,
          hend.cons_append_cons hwritten.expression_ne_nil⟩
      · next =>
        obtain ⟨ts, rfl⟩ := eq_cons_of_head hhead (by simp)
        simp only [skip_bind_apply, bind_eq_done_iff, pure_eq_done_iff, expect_eq_done_iff,
          ne_eq, reduceCtorEq, not_false_eq_true, List.tail_cons] at h
        obtain ⟨target, _, hname, _, _, ⟨q, rfl⟩, value, _, hvalue, rfl, rfl⟩ := h
        obtain ⟨ns, rfl, hnamed, -⟩ := writesName_of_eq_done hname
        obtain ⟨us, rfl, hwritten, hend⟩ := written_expression hvalue
        exact ⟨_, by simp, .assignment p q hnamed hwritten,
          hend.cons_append_cons hwritten.expression_ne_nil⟩
      · next =>
        obtain ⟨ts, rfl⟩ := eq_cons_of_head hhead (by simp)
        rw [skip_bind_apply, List.tail_cons] at h
        obtain ⟨condition, _, hcondition, hthen⟩ := bind_eq_done_iff.mp h
        obtain ⟨cs, rfl, htested, -⟩ := written_expression hcondition
        obtain ⟨_, _, harrow, hbody⟩ := bind_eq_done_iff.mp hthen
        obtain ⟨q, rfl⟩ := (expect_eq_done_iff (by simp)).mp harrow
        obtain ⟨consequent, _, hblock, hbehind⟩ := bind_eq_done_iff.mp hbody
        obtain ⟨us, rfl, hwritten, -⟩ := written_blockWithin bound _ _ _ _ hblock
        obtain ⟨t, r, hhead, h⟩ := of_current_bind_eq_done hbehind
        dsimp only at h
        split at h
        · next heq =>
          obtain ⟨ts, rfl⟩ := eq_cons_of_head (heq ▸ hhead) (by simp)
          simp only [skip_bind_apply, bind_eq_done_iff, pure_eq_done_iff, expect_eq_done_iff,
            ne_eq, reduceCtorEq, not_false_eq_true, List.tail_cons] at h
          obtain ⟨alternative, _, hother, _, _, ⟨s, rfl⟩, rfl, rfl⟩ := h
          obtain ⟨vs, rfl, hotherwise, -⟩ := written_blockWithin bound _ _ _ _ hother
          exact ⟨_, by simp, .branchElse p q r s htested hwritten hotherwise,
            apart_of_lastToken .stop (by simp) fun _ => rfl⟩
        · simp only [bind_eq_done_iff, pure_eq_done_iff, expect_eq_done_iff,
            ne_eq, reduceCtorEq, not_false_eq_true] at h
          obtain ⟨_, _, ⟨s, rfl⟩, rfl, rfl⟩ := h
          exact ⟨_, by simp, .branch p q s htested hwritten,
            apart_of_lastToken .stop (by simp) fun _ => rfl⟩
      · next =>
        obtain ⟨ts, rfl⟩ := eq_cons_of_head hhead (by simp)
        simp only [skip_bind_apply, bind_eq_done_iff, pure_eq_done_iff, expect_eq_done_iff,
          ne_eq, reduceCtorEq, not_false_eq_true, List.tail_cons] at h
        obtain ⟨condition, _, hcondition, _, _, ⟨q, rfl⟩, body, _, hblock, _, _, ⟨r, rfl⟩,
          rfl, rfl⟩ := h
        obtain ⟨cs, rfl, htested, -⟩ := written_expression hcondition
        obtain ⟨us, rfl, hwritten, -⟩ := written_blockWithin bound _ _ _ _ hblock
        exact ⟨_, by simp, .loop p q r htested hwritten,
          apart_of_lastToken .stop (by simp) fun _ => rfl⟩
      · next =>
        obtain ⟨ts, rfl⟩ := eq_cons_of_head hhead (by simp)
        simp only [skip_bind_apply, bind_eq_done_iff, pure_eq_done_iff, expect_eq_done_iff,
          ne_eq, reduceCtorEq, not_false_eq_true, List.tail_cons] at h
        obtain ⟨defined, _, hname, parameters, _, hparameters, _, _, ⟨q, rfl⟩, body, _, hblock,
          _, _, ⟨r, rfl⟩, rfl, rfl⟩ := h
        obtain ⟨ns, rfl, hnamed, -⟩ := writesName_of_eq_done hname
        obtain ⟨ps, rfl, hlisted⟩ := written_parametersWithin bound _ _ _ hparameters
        obtain ⟨us, rfl, hwritten, -⟩ := written_blockWithin bound _ _ _ _ hblock
        refine ⟨_, by simp, .definition p q r hnamed hlisted hwritten,
          apart_of_lastToken .stop ?_ fun _ => rfl⟩
        rw [← List.append_assoc, lastToken_cons_append_cons, lastToken_cons_append_cons]
        rfl
      · next =>
        obtain ⟨ts, rfl⟩ := eq_cons_of_head hhead (by simp)
        simp only [skip_bind_apply, bind_eq_done_iff, pure_eq_done_iff, List.tail_cons] at h
        obtain ⟨value, _, hvalue, rfl, rfl⟩ := h
        obtain ⟨us, rfl, hwritten, hend⟩ := written_expression hvalue
        refine ⟨_, by simp, .print p hwritten, ?_⟩
        rw [Apart, ← List.singleton_append, lastToken_append hwritten.expression_ne_nil]
        exact hend
      · next =>
        obtain ⟨us, rfl, hwritten, hend⟩ := written_operandWithin _ false _ _ _ h
        refine ⟨us, rfl, .marked ?_ hwritten, hend⟩
        rw [← nextToken_append hwritten.operand_ne_nil, ← head_value stop, hhead]
      -- Seven kinds of tokens begin no statement, and all others an expression.
      iterate 7 · cases h
      · next hcall _ _ _ _ _ _ _ =>
        obtain ⟨us, rfl, hwritten, hend⟩ := written_expression h
        refine ⟨us, rfl, .plain ?_ hwritten, hend⟩
        rwa [← nextToken_append hwritten.expression_ne_nil, ← head_value stop, hhead]
theorem written_blockWithin : ∀ (bound : Nat) (closing : List Token)
    (ts : List (Located Token)) (ns : List Node) (rest : List (Located Token)),
    blockWithin bound closing stop ts = .done ns rest →
    ∃ us, ts = us ++ rest ∧ Written (.block ns) us ∧
      (nextToken rest = .endOfInput ∨ nextToken rest ∈ closing)
  | 0, _, _, _, _, h => by cases h
  | bound + 1, closing, ts, ns, rest, h => by
      rw [blockWithin] at h
      obtain ⟨t, p, hhead, h⟩ := of_current_bind_eq_done h
      dsimp only at h
      split at h
      · next hend =>
        obtain ⟨rfl, rfl⟩ := pure_eq_done_iff.mp h
        refine ⟨[], rfl, .noStatements, ?_⟩
        rwa [← head_value stop, hhead]
      · simp only [bind_eq_done_iff, pure_eq_done_iff] at h
        obtain ⟨statement, _, hstatement, more, _, hmore, rfl, rfl⟩ := h
        obtain ⟨us, rfl, hwritten, hend⟩ := written_statementWithin bound _ _ _ hstatement
        obtain ⟨vs, rfl, hrest, hclose⟩ := written_blockWithin bound closing _ _ _ hmore
        exact ⟨us ++ vs, by simp, .statement hwritten hrest hend.of_append, hclose⟩
end

end Grammar

end Pictoscript
