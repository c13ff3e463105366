import Pictoscript.Proofs.Lexing.Concatenation

/-! # Pulling tokens

A tape is asked for the next token, asked to show it without taking it, or asked
whether the text is used up. However these requests are mixed, the answers are
those of the token list of the text: a request is answered from the token whose
index is the number of tokens taken before, and from the last one, which marks the
end, once all tokens are taken. Only taking a token makes a difference to what is
answered later.
-/

namespace Pictoscript

inductive Request where
  | next
  | peek
  | atEnd
deriving DecidableEq, Repr

inductive Answer where
  | token (t : Located Token)
  | used (isUsedUp : Bool)
deriving DecidableEq, Repr

namespace Tape

def respond (t : Tape) : Request → Answer × Tape
  | .next => (.token t.next.1, t.next.2)
  | .peek => (.token t.peek.1, t.peek.2)
  | .atEnd => (.used t.atEnd, t)

def answers (t : Tape) : List Request → List Answer
  | [] => []
  | request :: requests => (t.respond request).1 :: (t.respond request).2.answers requests

end Tape

/-- The answer to a request where `t` is the next token. -/
def Request.answer (t : Located Token) : Request → Answer
  | .next | .peek => .token t
  | .atEnd => .used (t.value == .endOfInput)

/-! ## Tokens by index -/

namespace Tokens

theorem min_lt_length (ts : Tokens) (n : Nat) :
    min n (ts.toList.length - 1) < ts.toList.length := by
  have hpos : 0 < ts.toList.length := by simp [toList]
  omega

/-- The token at an index, and the last one at every index behind it. -/
def get (ts : Tokens) (n : Nat) : Located Token :=
  ts.toList.get ⟨min n (ts.toList.length - 1), ts.min_lt_length n⟩

theorem get_nil (stop : Position) (n : Nat) :
    (⟨[], stop⟩ : Tokens).get n = ⟨.endOfInput, stop⟩ := by
  simp [get, toList]

theorem get_cons_zero (t : Located Token) (items : List (Located Token)) (stop : Position) :
    (⟨t :: items, stop⟩ : Tokens).get 0 = t := by
  simp [get, toList]

theorem get_cons_succ (t : Located Token) (items : List (Located Token)) (stop : Position)
    (n : Nat) : (⟨t :: items, stop⟩ : Tokens).get (n + 1) = (⟨items, stop⟩ : Tokens).get n := by
  have hindex : min (n + 1) (items.length + 1) = min n items.length + 1 := by omega
  simp [get, toList, hindex]

/-- The mark of the end stands at every index behind one where it stands. -/
theorem get_of_endOfInput {items : List (Located Token)} {stop : Position}
    (h : ∀ t ∈ items, t.value ≠ .endOfInput) {n m : Nat} (hnm : n ≤ m)
    (hn : ((⟨items, stop⟩ : Tokens).get n).value = .endOfInput) :
    (⟨items, stop⟩ : Tokens).get m = (⟨items, stop⟩ : Tokens).get n := by
  induction items generalizing n m with
  | nil => rw [get_nil, get_nil]
  | cons t items ih =>
      obtain ⟨ht, hitems⟩ := List.forall_mem_cons.mp h
      cases n with
      | zero =>
          rw [get_cons_zero] at hn
          exact absurd hn ht
      | succ n =>
          cases m with
          | zero => omega
          | succ m =>
              rw [get_cons_succ] at hn ⊢
              rw [get_cons_succ]
              exact ih hitems (by omega) hn

end Tokens

/-! ## One request -/

namespace Cursor

/-- At the end the cursor stays behind the blanks. -/
theorem next_of_next?_none {k : Cursor} (h : k.next? = none) :
    k.next = (⟨.endOfInput, k.skipBlanks.position⟩, k.skipBlanks) := by
  rw [next, h]
  rfl

theorem next_of_next?_some {k after : Cursor} {t : Located Token}
    (h : k.next? = some (t, after)) : k.next = (t, after) := by
  rw [next, h]
  rfl

theorem tokens_skipBlanks (k : Cursor) : k.skipBlanks.tokens = k.tokens :=
  tokens_congr (skip_skip isBlank k)

/-- The next token is the first of the list. -/
theorem get_tokens_zero (k : Cursor) : k.tokens.get 0 = k.next.1 := by
  cases h : k.next? with
  | none => rw [tokens_of_next?_none h, next_of_next?_none h, Tokens.get_nil]
  | some found =>
      obtain ⟨t, after⟩ := found
      rw [tokens_of_next?_some h, next_of_next?_some h, Tokens.get_cons_zero]

/-- Taking a token moves all others forward by one, except for the mark of the
end. -/
theorem get_tokens_next (k : Cursor) (n : Nat) :
    k.next.2.tokens.get n = k.tokens.get (n + 1) := by
  cases h : k.next? with
  | none =>
      rw [next_of_next?_none h, tokens_skipBlanks, tokens_of_next?_none h, Tokens.get_nil,
        Tokens.get_nil]
  | some found =>
      obtain ⟨t, after⟩ := found
      rw [next_of_next?_some h, tokens_of_next?_some h, Tokens.get_cons_succ]

/-- Only blanks are left just when the next token is the mark of the end. -/
theorem atEnd_eq (k : Cursor) : k.atEnd = ((k.tokens.get 0).value == .endOfInput) := by
  rw [get_tokens_zero]
  cases h : k.next? with
  | none =>
      have hblank : ∀ c ∈ k.rest, isBlank c = true :=
        List.dropWhile_eq_nil_iff.mp (rest_skipBlanks_of_unit?_none (next?_eq_none_iff.mp h))
      rw [next_of_next?_none h, atEnd, List.all_eq_true.mpr hblank]
      rfl
  | some found =>
      obtain ⟨t, after⟩ := found
      have hvalue : t.value ≠ .endOfInput := by
        intro hend
        have hgenuine := genuine_of_next? h
        rw [hend] at hgenuine
        cases hgenuine
      have hblank : k.atEnd = false := by
        rw [← Bool.not_eq_true, atEnd, List.all_eq_true]
        intro hall
        have hunit : k.unit? = none := by
          rw [unit?, skipBlanks, skip, List.dropWhile_eq_nil_iff.mpr hall]
          rfl
        rw [next?_eq_none_iff.mpr hunit] at h
        cases h
      rw [next_of_next?_some h, hblank]
      simpa using hvalue

end Cursor

namespace Tape

variable {t : Tape} {k : Cursor}

/-- A request is answered from the next token, and moves on only if it takes the token. -/
theorem Follows.respond (h : t.Follows k) (request : Request) :
    (t.respond request).1 = request.answer (k.tokens.get 0) ∧
      ∃ k', (t.respond request).2.Follows k' ∧
        ∀ n, k'.tokens.get n = k.tokens.get ([request].count .next + n) := by
  obtain ⟨last, hnext, hfollows⟩ := h.next
  cases request with
  | next =>
      rw [Tape.respond, hnext, Cursor.get_tokens_zero]
      refine ⟨rfl, k.next.2, hfollows, ?_⟩
      intro n
      rw [show [Request.next].count .next + n = n + 1 from Nat.add_comm 1 n]
      exact Cursor.get_tokens_next k n
  | peek =>
      rw [Tape.respond, peek_eq, hnext, Cursor.get_tokens_zero]
      refine ⟨rfl, k, h, ?_⟩
      intro n
      rw [show [Request.peek].count .next + n = n from Nat.zero_add n]
  | atEnd =>
      obtain ⟨read, hstands⟩ := id h
      rw [Tape.respond, hstands.atEnd, Cursor.atEnd_eq]
      refine ⟨rfl, k, h, ?_⟩
      intro n
      rw [show [Request.atEnd].count .next + n = n from Nat.zero_add n]

/-! ## All requests -/

/-- Each answer comes from the token whose index is the number of tokens taken
before. -/
theorem Follows.answers (requests : List Request) (h : t.Follows k) :
    t.answers requests = requests.mapIdx fun j request =>
      request.answer (k.tokens.get ((requests.take j).count .next)) := by
  induction requests generalizing t k with
  | nil => rfl
  | cons request requests ih =>
      obtain ⟨hanswer, k', hfollows, hbehind⟩ := h.respond request
      have hcount : ∀ j, ((request :: requests).take (j + 1)).count .next =
          [request].count .next + (requests.take j).count .next := by
        intro j
        rw [List.take_succ_cons, ← List.singleton_append, List.count_append]
      rw [Tape.answers, ih hfollows, List.mapIdx_cons, hanswer]
      simp only [hbehind, hcount]
      rfl

/-- **Requests are answered from the token list.** The answer to each request is
that of the token whose index is the number of tokens taken before it, or of the
last token if there are not so many. So behind an answer that shows the mark of the
end, every token that is shown is this mark at the same position. -/
theorem answers_of_tokenize (source : String) (requests : List Request) :
    ((ofText source).answers requests = requests.mapIdx fun j request =>
      request.answer ((tokenize source).get ((requests.take j).count .next))) ∧
    ∀ (i j : Nat) (p : Position) (t : Located Token), i ≤ j →
      ((ofText source).answers requests)[i]? = some (.token ⟨.endOfInput, p⟩) →
      ((ofText source).answers requests)[j]? = some (.token t) → t = ⟨.endOfInput, p⟩ := by
  have hanswers := Follows.answers requests ⟨"", stands_ofText source⟩
  rw [← tokenize_eq] at hanswers
  refine ⟨hanswers, fun i j p t hij hi hj => ?_⟩
  have shown : ∀ {n : Nat} {u : Located Token},
      ((ofText source).answers requests)[n]? = some (.token u) →
        (tokenize source).get ((requests.take n).count .next) = u := by
    intro n u hn
    rw [hanswers, List.getElem?_mapIdx] at hn
    obtain ⟨request, -, hrequest⟩ := Option.map_eq_some_iff.mp hn
    cases request <;> cases hrequest <;> rfl
  have hcount : (requests.take i).count .next ≤ (requests.take j).count .next :=
    (List.take_prefix_take_left hij).sublist.count_le _
  have hsame := Tokens.get_of_endOfInput (tokenize_ne_endOfInput source) hcount
    (congrArg Located.value (shown hi))
  exact (shown hj).symm.trans (hsame.trans (shown hi))

/-- A quotation is shown and taken as one token, and the mark of the end is shown
again and again. -/
theorem answers_of_tokenize_quotation :
    (ofText "📋 🍉 🍇 📋 ").answers [.peek, .next, .atEnd, .next, .peek] =
      [.token ⟨.text "🍉🍇", ⟨1, 1⟩⟩, .token ⟨.text "🍉🍇", ⟨1, 1⟩⟩, .used true,
        .token ⟨.endOfInput, ⟨1, 9⟩⟩, .token ⟨.endOfInput, ⟨1, 9⟩⟩] := by
  have htokens : tokenize "📋 🍉 🍇 📋 " = ⟨[⟨.text "🍉🍇", ⟨1, 1⟩⟩], ⟨1, 9⟩⟩ := by
    decide +kernel
  rw [(answers_of_tokenize _ _).1, htokens]
  decide

end Tape

end Pictoscript
