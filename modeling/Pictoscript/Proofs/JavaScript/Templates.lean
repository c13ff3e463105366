import Mathlib.Data.List.Forall2
import Pictoscript.Proofs.JavaScript.Reader

/-! # What the templates of a script are read as

Scripts are put together from templates: an operand in parentheses, two operands
with an operator between them, a condition with its block. For each template it
is shown how the text is read when it is known how its parts are read. A part is
read in the same way wherever a template puts it, since the reader never looks
back further than the piece before a bracket.
-/

namespace Pictoscript

namespace Js

/-! ## Runs of the reader -/

theorem run_nil (k : State) : run k [] = some k := rfl

theorem run_cons (k : State) (t : Token) (ts : List Token) :
    run k (t :: ts) = (step k t).bind fun k' => run k' ts := rfl

theorem step_closing (k : State) (b : Bracket) : step k (.closing b) = closeBracket b k := rfl

theorem run_word (k : State) (w : String) (ts : List Token) :
    run k (.word w :: ts) = run (k.push (.ofWord w)) ts := rfl

theorem run_operator (k : State) (op : Operator) (ts : List Token) :
    run k (.operator op :: ts) = run (k.push (.operator op)) ts := rfl

theorem run_assign (k : State) (ts : List Token) :
    run k (.assign :: ts) = run (k.push .assign) ts := rfl

theorem run_opening (k : State) (b : Bracket) (ts : List Token) :
    run k (.opening b :: ts) = run (openBracket b k) ts := rfl

theorem run_append (k : State) (ts us : List Token) :
    run k (ts ++ us) = (run k ts).bind fun k' => run k' us := by
  rw [run, List.foldlM_append]
  rfl

def State.pushAll (row : List Piece) (k : State) : State :=
  { k with top := { k.top with row := row.reverse ++ k.top.row } }

theorem State.pushAll_append (row row' : List Piece) (k : State) :
    k.pushAll (row ++ row') = (k.pushAll row).pushAll row' := by
  simp [State.pushAll]

theorem State.pushAll_singleton (p : Piece) (k : State) : k.pushAll [p] = k.push p := rfl

def Piece.isOperand : Piece → Bool
  | .operand _ => true
  | _ => false

/-- A bracket that is opened now would not belong to an operand before it. -/
def State.Ready (k : State) : Prop := ∀ p ∈ k.top.row.head?, p.isOperand = false

/-- The text is read as the row of pieces, whatever stands before it. -/
def Joins (text : String) (row : List Piece) : Prop :=
  ∃ ts, Lexes text.toList ts ∧ ∀ k, run k ts = some (k.pushAll row)

/-- The text is read as the row of pieces behind anything but an operand. -/
def Reads (text : String) (row : List Piece) : Prop :=
  ∃ ts, Lexes text.toList ts ∧ ∀ k : State, k.Ready → run k ts = some (k.pushAll row)

/-- The text cannot go on with a word that ends where it begins. -/
def Separate (text : String) : Prop := ∀ c ∈ text.toList.head?, isWordChar c = false

variable {a b : String} {row row' : List Piece}

theorem Joins.reads (h : Joins a row) : Reads a row := by
  obtain ⟨ts, hlex, hrun⟩ := h
  exact ⟨ts, hlex, fun k _ => hrun k⟩

theorem Joins.append (ha : Joins a row) (hb : Joins b row') (hsep : Separate b) :
    Joins (a ++ b) (row ++ row') := by
  obtain ⟨ts, hts, hrun⟩ := ha
  obtain ⟨us, hus, hrun'⟩ := hb
  refine ⟨ts ++ us, ?_, fun k => ?_⟩
  · rw [String.toList_append]
    exact hts.append hus hsep
  · rw [run_append, hrun k, Option.bind_some, hrun', State.pushAll_append]

/-- A text that begins with a bracket may follow what does not end in an operand. -/
theorem Joins.read (ha : Joins a row) (hb : Reads b row') (hsep : Separate b)
    (hlast : ∃ p, row.getLast? = some p ∧ p.isOperand = false) :
    Joins (a ++ b) (row ++ row') := by
  obtain ⟨ts, hts, hrun⟩ := ha
  obtain ⟨us, hus, hrun'⟩ := hb
  obtain ⟨p, hp, hoperand⟩ := hlast
  refine ⟨ts ++ us, ?_, fun k => ?_⟩
  · rw [String.toList_append]
    exact hts.append hus hsep
  · have hready : (k.pushAll row).Ready := by
      intro q hq
      simp only [State.pushAll, List.head?_append, List.head?_reverse, hp,
        Option.some_or, Option.mem_def, Option.some.injEq] at hq
      rw [← hq]
      exact hoperand
    rw [run_append, hrun k, Option.bind_some, hrun' _ hready, State.pushAll_append]

/-! ## Words and literals -/

theorem joins_word {w : String} (h : IsWord w) : Joins w [.ofWord w] :=
  ⟨[.word w], lexes_word h, fun _ => rfl⟩

theorem joins_quoted (value : String) : Joins (Script.quoted value) [.operand (.text value)] :=
  ⟨[.text value], lexes_quoted value, fun _ => rfl⟩

/-- A name of a script: it has a character outside ASCII, which no keyword and
no number has. -/
structure IsName (w : String) : Prop where
  chars : ∀ c ∈ w.toList, isWordChar c = true
  exotic : ∃ c ∈ w.toList, 128 ≤ c.toNat

theorem IsName.ne {w v : String} (h : IsName w) (hv : v.toList.all (·.toNat < 128) = true) :
    w ≠ v := by
  rintro rfl
  obtain ⟨c, hc, hexotic⟩ := h.exotic
  have hascii := List.all_eq_true.mp hv c hc
  rw [decide_eq_true_eq] at hascii
  omega

theorem IsName.isWord {w : String} (h : IsName w) : IsWord w := ⟨h.ne rfl, h.chars⟩

theorem IsName.not_digits {w : String} (h : IsName w) : w.toList.all Char.isDigit = false := by
  obtain ⟨c, hc, hexotic⟩ := h.exotic
  rw [List.all_eq_false]
  refine ⟨c, hc, ?_⟩
  intro hdigit
  have hbound : c.toNat ≤ 57 := by
    simp only [Char.isDigit, Bool.and_eq_true, decide_eq_true_eq] at hdigit
    exact hdigit.2
  omega

theorem IsName.ofWord {w : String} (h : IsName w) : Piece.ofWord w = .operand (.name w) := by
  rw [Piece.ofWord, if_neg (h.ne (by decide)), if_neg (h.ne (by decide)),
    if_neg (h.ne (by decide)), if_neg (h.ne (by decide)), if_neg (h.ne (by decide)),
    if_neg (h.ne (by decide)), if_neg (h.ne (by decide)), h.not_digits]
  rfl

theorem joins_name {w : String} (h : IsName w) : Joins w [.operand (.name w)] := by
  rw [← h.ofWord]
  exact joins_word h.isWord

/-! ## Expressions -/

structure IsOperand (text : String) (e : Expr) : Prop where
  reads : Reads text [.operand e]
  opens : ∃ c cs, text.toList = c :: cs ∧ opensOperand c = true

structure IsValue (text : String) (e : Expr) : Prop where
  reads : ∃ row, Reads text row ∧ resolve? row = some e
  opens : ∃ c cs, text.toList = c :: cs ∧ (opensOperand c = true ∨ c = '!')

variable {text : String} {e : Expr}

theorem IsOperand.isValue (h : IsOperand text e) : IsValue text e := by
  obtain ⟨c, cs, htext, hc⟩ := h.opens
  exact ⟨⟨_, h.reads, rfl⟩, c, cs, htext, .inl hc⟩

/-- Brackets around a text end it, whatever stands behind them. -/
theorem lex_bracketed {text : String} {c d : Char} {t u : Token} {ts : List Token}
    (h : Lexes text.toList ts) (hc : isBlank c = false) (hd : isBlank d = false)
    (hword : isWordChar d = false) (hopen : ∀ rest, next? (c :: rest) = some (t, rest))
    (hclose : ∀ rest, next? (d :: rest) = some (u, rest)) (rest : List Char) :
    lex (c :: (text.toList ++ d :: rest)) = (lex rest).map fun vs => t :: (ts ++ u :: vs) := by
  rw [lex_of_next? hc (hopen _), h _ (forall_head?_cons hword rest), lex_of_next? hd (hclose rest),
    Option.map_map, Option.map_map]
  rfl

theorem lexes_bracketed {text : String} {c d : Char} {t u : Token} {ts : List Token}
    (h : Lexes text.toList ts) (hc : isBlank c = false) (hd : isBlank d = false)
    (hword : isWordChar d = false) (hopen : ∀ rest, next? (c :: rest) = some (t, rest))
    (hclose : ∀ rest, next? (d :: rest) = some (u, rest)) :
    Lexes (c :: (text.toList ++ [d])) (t :: (ts ++ [u])) := by
  intro rest _
  have hlex := lex_bracketed h hc hd hword hopen hclose rest
  simpa using hlex

theorem toList_parenthesized (text : String) :
    (Script.parenthesized text).toList = '(' :: (text.toList ++ [')']) := by
  simp [Script.parenthesized]

/-- Parentheses make one operand of an expression. -/
theorem isOperand_parenthesized (h : IsValue text e) :
    IsOperand (Script.parenthesized text) e := by
  obtain ⟨⟨row, ⟨ts, hts, hrun⟩, hresolve⟩, -⟩ := h
  refine ⟨⟨.opening .paren :: (ts ++ [.closing .paren]), ?_, fun k hk => ?_⟩, '(', _,
    toList_parenthesized text, by decide⟩
  · rw [toList_parenthesized]
    exact lexes_bracketed hts (by decide) (by decide) (by decide) (fun _ => rfl) fun _ => rfl
  · have hopen : openBracket .paren k = k.enter .group := by
      unfold openBracket
      split
      · next heq => exact absurd (hk _ (by rw [heq]; rfl)) (by simp [Piece.isOperand])
      · rfl
      all_goals contradiction
    have hready : (k.enter .group).Ready := by
      intro p hp
      cases hp
    have hclosed : step ((k.enter .group).pushAll row) (.closing .paren) =
        some (k.pushAll [.operand e]) := by
      simp [step_closing, closeBracket, State.pushAll, State.enter, State.leave, State.push,
        hresolve]
    rw [run_opening, hopen, run_append, hrun _ hready, Option.bind_some,
      run_cons, hclosed]
    rfl

/-! ## Lists

The members of a list of either kind are collected in the same way: a row is
read as a member when the separator or the end of the list comes. -/

/-- The states `at'` with the members so far, last first, collect members that
`f` makes of their rows; `finish` ends the list with the result `result`. -/
structure Collects {α β : Type} (f : List Piece → Option α) (separator : Token)
    (at' : List α → State) (finish : State → Option β) (result : List α → β) : Prop where
  ready : ∀ done, (at' done).Ready
  next : ∀ {done row a}, f row = some a →
    step ((at' done).pushAll row) separator = some (at' (a :: done))
  empty : ∀ done, finish (at' done) = some (result done.reverse)
  last : ∀ {done row a}, f row = some a →
    finish ((at' done).pushAll row) = some (result (a :: done).reverse)

/-- A list with separators between its members is read as these members. -/
theorem lexes_intercalate {α : Type} {f : List Piece → Option α} {c : Char} {separator : Token}
    {s : String} (hs : s.toList = [c]) (hblank : isBlank c = false) (hword : isWordChar c = false)
    (hnext : ∀ rest, next? (c :: rest) = some (separator, rest)) {texts : List String}
    {members : List α}
    (h : List.Forall₂ (fun text a => ∃ row, Reads text row ∧ f row = some a) texts members) :
    ∃ ts, Lexes (s.intercalate texts).toList ts ∧
      ∀ {β : Type} {at' : List α → State} {finish : State → Option β} {result : List α → β},
        Collects f separator at' finish result → ∀ done,
          (run (at' done) ts).bind finish = some (result (done.reverse ++ members)) := by
  induction h with
  | nil =>
      refine ⟨[], by simpa using lexes_nil, fun hcollects done => ?_⟩
      simpa [run_nil] using hcollects.empty done
  | @cons text a texts members hmember hmembers ih =>
      obtain ⟨row, ⟨ts, hts, hrun⟩, hrow⟩ := hmember
      cases hmembers with
      | nil =>
          refine ⟨ts, by simpa using hts, fun hcollects done => ?_⟩
          rw [hrun _ (hcollects.ready done), Option.bind_some, hcollects.last hrow,
            List.reverse_cons]
      | @cons text' a' texts members _ _ =>
          obtain ⟨us, hus, hcollected⟩ := ih
          refine ⟨ts ++ separator :: us, ?_, fun hcollects done => ?_⟩
          · rw [String.intercalate_cons_cons, String.toList_append, String.toList_append, hs,
              List.append_assoc]
            exact hts.append (hus.mark hblank hnext) (by simpa using hword)
          · rw [run_append, hrun _ (hcollects.ready done), Option.bind_some, run_cons,
              hcollects.next hrow, Option.bind_some, hcollected hcollects]
            simp

theorem exists_reverse_cons {row : List Piece} (h : row ≠ []) :
    ∃ p row', row.reverse = p :: row' ∧ (p :: row').reverse = row := by
  have hne : row.reverse ≠ [] := by
    rwa [Ne, List.reverse_eq_nil_iff]
  obtain ⟨p, row', hrow⟩ := List.exists_cons_of_ne_nil hne
  exact ⟨p, row', hrow, by rw [← hrow, List.reverse_reverse]⟩

theorem items?_pushAll {row : List Piece} {f : Frame} (hf : f.row = [])
    (h : resolve? row = some e) :
    ({ f with row := row.reverse ++ f.row } : Frame).items? = some (e :: f.items).reverse := by
  have hne : row ≠ [] := by
    rintro rfl
    cases h
  obtain ⟨p, row', hrow, hback⟩ := exists_reverse_cons hne
  rw [hf, List.append_nil, hrow, Frame.items?]
  simp only [hback, h]
  rfl

/-- A comma in a list ends an item. -/
theorem step_comma {k : State} {row : List Piece}
    (hopening : k.top.opening = .array ∨ ∃ callee, k.top.opening = .call callee)
    (hrow : k.top.row = []) (h : resolve? row = some e) :
    step (k.pushAll row) .comma =
      some { k with top := { k.top with items := e :: k.top.items, row := [] } } := by
  rcases hopening with hopening | ⟨callee, hopening⟩
  · simp [step, State.pushAll, hopening, hrow, h]
  · simp [step, State.pushAll, hopening, hrow, h]

/-- The elements of an array, up to its closing bracket. -/
theorem collects_array (k : State) :
    Collects resolve? .comma (fun done => ⟨⟨.array, done, [], []⟩, k.top :: k.below⟩)
      (fun k' => step k' (.closing .square)) (fun es => k.push (.operand (.array es))) where
  ready done := by
    intro p hp
    cases hp
  next h := step_comma (.inl rfl) rfl h
  empty done := rfl
  last {done row e} h := by
    have hitems := items?_pushAll (f := ⟨.array, done, [], []⟩) rfl h
    simp only [step_closing, closeBracket, State.pushAll, hitems]
    rfl

/-- The arguments of a call, up to its closing bracket. -/
theorem collects_call (k : State) (callee : Expr) :
    Collects resolve? .comma (fun done => ⟨⟨.call callee, done, [], []⟩, k.top :: k.below⟩)
      (fun k' => step k' (.closing .paren)) (fun es => k.push (.operand (.call callee es))) where
  ready done := by
    intro p hp
    cases hp
  next h := step_comma (.inr ⟨callee, rfl⟩) rfl h
  empty done := rfl
  last {done row e} h := by
    have hitems := items?_pushAll (f := ⟨.call callee, done, [], []⟩) rfl h
    simp only [step_closing, closeBracket, State.pushAll, hitems]
    rfl

theorem lexes_items {texts : List String} {es : List Expr} (h : List.Forall₂ IsValue texts es) :
    ∃ ts, Lexes (",".intercalate texts).toList ts ∧
      ∀ {β : Type} {at' : List Expr → State} {finish : State → Option β} {result : List Expr → β},
        Collects resolve? .comma at' finish result →
          (run (at' []) ts).bind finish = some (result es) := by
  have hnext : ∀ rest, next? (',' :: rest) = some (.comma, rest) := fun _ => rfl
  have hs : ",".toList = [','] := rfl
  obtain ⟨ts, hts, hcollected⟩ := lexes_intercalate hs (by decide) (by decide) hnext
    (h.imp fun _ _ hvalue => hvalue.reads)
  exact ⟨ts, hts, fun hcollects => by simpa using hcollected hcollects []⟩

theorem isOperand_array {texts : List String} {es : List Expr}
    (h : List.Forall₂ IsValue texts es) :
    IsOperand ("[" ++ ",".intercalate texts ++ "]") (.array es) := by
  obtain ⟨ts, hts, hcollected⟩ := lexes_items h
  have hchars : ("[" ++ ",".intercalate texts ++ "]").toList =
      '[' :: ((",".intercalate texts).toList ++ [']']) := by simp
  refine ⟨⟨.opening .square :: (ts ++ [.closing .square]), ?_, fun k hk => ?_⟩, '[', _, hchars,
    by decide⟩
  · rw [hchars]
    exact lexes_bracketed hts (by decide) (by decide) (by decide) (fun _ => rfl) fun _ => rfl
  · have hopen : openBracket .square k = ⟨⟨.array, [], [], []⟩, k.top :: k.below⟩ := by
      unfold openBracket
      split
      · contradiction
      · contradiction
      · next heq => exact absurd (hk _ (by rw [heq]; rfl)) (by simp [Piece.isOperand])
      · rfl
      · contradiction
    have hlist := hcollected (collects_array k)
    rw [run_opening, hopen, run_append, State.pushAll_singleton]
    simpa [run_cons, run_nil] using hlist

/-- The name of a function with arguments behind it. The parentheses belong to
the name, so it does not matter what stands before. -/
theorem joins_call {w : String} {callee : Expr} {texts : List String} {es : List Expr}
    (hword : IsWord w) (hpiece : Piece.ofWord w = .operand callee)
    (h : List.Forall₂ IsValue texts es) :
    Joins (w ++ Script.parenthesized (",".intercalate texts)) [.operand (.call callee es)] := by
  obtain ⟨ts, hts, hcollected⟩ := lexes_items h
  have hlist : Lexes (Script.parenthesized (",".intercalate texts)).toList
      (.opening .paren :: (ts ++ [.closing .paren])) := by
    rw [toList_parenthesized]
    exact lexes_bracketed hts (by decide) (by decide) (by decide) (fun _ => rfl) fun _ => rfl
  refine ⟨.word w :: .opening .paren :: (ts ++ [.closing .paren]), ?_, fun k => ?_⟩
  · rw [String.toList_append]
    exact (lexes_word hword).append hlist
      (toList_parenthesized (",".intercalate texts) ▸ forall_head?_cons (by decide) _)
  -- The name is on top of the row when the parenthesis comes, so it is taken as the callee.
  · have hopen : openBracket .paren (k.push (.operand callee)) =
        ⟨⟨.call callee, [], [], []⟩, k.top :: k.below⟩ := rfl
    have hcall := hcollected (collects_call k callee)
    rw [run_word, hpiece, run_opening, hopen, run_append, State.pushAll_singleton]
    simpa [run_cons, run_nil] using hcall

theorem IsWord.opens {w : String} (h : IsWord w) (text : String) :
    ∃ c cs, (w ++ text).toList = c :: cs ∧ opensOperand c = true := by
  have hne : w.toList ≠ [] := by simpa using h.ne_empty
  obtain ⟨c, cs, hw⟩ := List.exists_cons_of_ne_nil hne
  refine ⟨c, cs ++ text.toList, by simp [hw], ?_⟩
  rw [opensOperand, h.chars c (by simp [hw])]
  rfl

theorem isOperand_call {w : String} {callee : Expr} {texts : List String} {es : List Expr}
    (hword : IsWord w) (hpiece : Piece.ofWord w = .operand callee)
    (h : List.Forall₂ IsValue texts es) :
    IsOperand (w ++ Script.parenthesized (",".intercalate texts)) (.call callee es) :=
  ⟨(joins_call hword hpiece h).reads, hword.opens _⟩

theorem isOperand_word {w : String} (hword : IsWord w) (hpiece : Piece.ofWord w = .operand e) :
    IsOperand w e := by
  have hjoins := joins_word hword
  rw [hpiece] at hjoins
  exact ⟨hjoins.reads, by simpa using hword.opens ""⟩

theorem isOperand_name {x : String} (h : IsName x) : IsOperand x (.name x) :=
  isOperand_word h.isWord h.ofWord

theorem isOperand_boolean (value : Bool) : IsOperand (toString value) (.boolean value) := by
  cases value with
  | false => exact isOperand_word (isWord_of_all (by decide) (by decide)) rfl
  | true => exact isOperand_word (isWord_of_all (by decide) (by decide)) rfl

theorem isOperand_number (n : Nat) : IsOperand (toString n) (.number n) := by
  have hchars : (toString n).toList = Nat.toDigits 10 n := by
    rw [Nat.toString_eq_ofList_toDigits, String.toList_ofList]
  have hdigits : ∀ c ∈ (toString n).toList, c.isDigit = true := by
    intro c hc
    rw [hchars] at hc
    exact Nat.isDigit_of_mem_toDigits (by decide) (by decide) hc
  have hne : toString n ≠ "" := by
    intro hempty
    have hnil : Nat.toDigits 10 n = [] := by rw [← hchars, hempty]; rfl
    exact absurd hnil (by simp)
  have hword : IsWord (toString n) :=
    ⟨hne, fun c hc => isWordChar_of_class Char.isDigit (by decide) (hdigits c hc)⟩
  have hkeyword : ∀ v : String, v.toList.any (!·.isDigit) = true → toString n ≠ v := by
    rintro v hv rfl
    obtain ⟨c, hc, hnot⟩ := List.any_eq_true.mp hv
    rw [hdigits c hc] at hnot
    cases hnot
  apply isOperand_word hword
  rw [Piece.ofWord, if_neg (hkeyword _ (by decide)), if_neg (hkeyword _ (by decide)),
    if_neg (hkeyword _ (by decide)), if_neg (hkeyword _ (by decide)),
    if_neg (hkeyword _ (by decide)), if_neg (hkeyword _ (by decide)),
    if_neg (hkeyword _ (by decide)), if_pos (List.all_eq_true.mpr hdigits), hchars,
    Nat.ofDigitChars_ten_toDigits]

theorem isOperand_quoted (value : String) : IsOperand (Script.quoted value) (.text value) :=
  ⟨(joins_quoted value).reads, '"', _, by simp [Script.quoted]; rfl, by decide⟩

theorem isValue_negation (h : IsOperand text e) : IsValue ("!" ++ text) (.negation e) := by
  obtain ⟨⟨ts, hts, hrun⟩, c, cs, htext, hc⟩ := h
  have hchars : ("!" ++ text).toList = Operator.not.script.toList ++ c :: cs := by
    rw [String.toList_append, htext]
    rfl
  rw [htext] at hts
  refine ⟨⟨[.operator .not, .operand e], ⟨.operator .not :: ts, ?_, fun k _ => ?_⟩, rfl⟩, ?_⟩
  · rw [hchars]
    exact hts.operator .not hc
  · have hready : (k.push (.operator .not)).Ready := by
      intro p hp
      cases hp
      rfl
    rw [run_operator, hrun _ hready]
    rfl
  · exact ⟨'!', c :: cs, hchars, .inr rfl⟩

theorem isValue_operation {a b : String} {e f : Expr} {op : Operator} (hop : op ≠ .not)
    (ha : IsOperand a e) (hb : IsOperand b f) :
    IsValue (a ++ op.script ++ b) (.operation op e f) := by
  obtain ⟨⟨ts, hts, hrun⟩, c, cs, hatext, hc⟩ := ha
  obtain ⟨⟨us, hus, hrun'⟩, d, ds, hbtext, hd⟩ := hb
  rw [hbtext] at hus
  have hresolve : resolve? [.operand e, .operator op, .operand f] =
      some (.operation op e f) := by
    cases op with
    | not => exact absurd rfl hop
    | _ => rfl
  have hseparate : ∀ x ∈ (op.script.toList ++ d :: ds).head?, isWordChar x = false := by
    cases op <;> exact forall_head?_cons (by decide) _
  have hchars : (a ++ op.script ++ b).toList = a.toList ++ (op.script.toList ++ d :: ds) := by
    rw [String.toList_append, String.toList_append, hbtext, List.append_assoc]
  refine ⟨⟨_, ⟨ts ++ .operator op :: us, ?_, fun k hk => ?_⟩, hresolve⟩, ?_⟩
  · rw [hchars]
    exact hts.append (hus.operator op hd) hseparate
  · have hready : ((k.pushAll [.operand e]).push (.operator op)).Ready := by
      intro p hp
      cases hp
      rfl
    rw [run_append, hrun k hk, Option.bind_some, run_operator, hrun' _ hready]
    rfl
  · refine ⟨c, cs ++ (op.script.toList ++ d :: ds), ?_, .inl hc⟩
    rw [hchars, hatext]
    rfl

/-! ## Statements -/

def IsStatement (text : String) (s : Statement) : Prop :=
  ∃ row, Reads text row ∧ statement? row = some s

/-- A row that is an expression is no other statement. -/
theorem statement?_of_resolve? {row : List Piece} (h : resolve? row = some e) :
    statement? row = some (.evaluate e) := by
  unfold statement?
  split
  · cases h
  · cases h
  · cases h
  · cases h
  · cases h
  · cases h
  · rw [h]
    rfl

theorem isStatement_evaluate (h : IsValue text e) : IsStatement text (.evaluate e) := by
  obtain ⟨row, hreads, hresolve⟩ := h.reads
  exact ⟨row, hreads, statement?_of_resolve? hresolve⟩

theorem separate_of_cons {text : String} {c : Char} {cs : List Char} (h : text.toList = c :: cs)
    (hc : isWordChar c = false) : Separate text := by
  rw [Separate, h]
  exact forall_head?_cons hc cs

/-- An equals sign with a value behind it. -/
theorem joins_assign (h : IsValue text e) :
    ∃ row, Joins ("=" ++ text) (.assign :: row) ∧ resolve? row = some e := by
  obtain ⟨⟨row, ⟨ts, hts, hrun⟩, hresolve⟩, c, cs, htext, hc⟩ := h
  refine ⟨row, ⟨.assign :: ts, ?_, fun k => ?_⟩, hresolve⟩
  · rw [String.toList_append, htext]
    rw [htext] at hts
    exact hts.assign hc
  · have hready : (k.push .assign).Ready := by
      intro p hp
      cases hp
      rfl
    rw [run_assign, hrun _ hready]
    simp [State.pushAll, State.push]

theorem separate_assign (text : String) : Separate ("=" ++ text) :=
  separate_of_cons (by rw [String.toList_append]; rfl) (by decide)

theorem isStatement_assign {x : String} (hx : IsName x) (h : IsValue text e) :
    IsStatement (x ++ "=" ++ text) (.assign x e) := by
  obtain ⟨row, hassign, hresolve⟩ := joins_assign h
  refine ⟨[.operand (.name x)] ++ .assign :: row, ?_, ?_⟩
  · rw [String.append_assoc]
    exact ((joins_name hx).append hassign (separate_assign text)).reads
  · rw [List.singleton_append, statement?_assign, hresolve]
    rfl

/-- A keyword with a blank behind it. -/
theorem joins_blank {w rest : String} {row : List Piece} (hw : IsWord w) (h : Joins rest row) :
    Joins (w ++ " " ++ rest) (.ofWord w :: row) := by
  have hblank : Joins (" " ++ rest) row := by
    obtain ⟨ts, hts, hrun⟩ := h
    refine ⟨ts, ?_, hrun⟩
    rw [String.toList_append]
    exact hts.blank
  rw [String.append_assoc]
  exact (joins_word hw).append hblank
    (separate_of_cons (by rw [String.toList_append]; rfl) (by decide))

theorem isStatement_declare {x : String} (hx : IsName x) (h : IsValue text e) :
    IsStatement ("let " ++ x ++ "=" ++ text) (.declare x e) := by
  obtain ⟨row, hassign, hresolve⟩ := joins_assign h
  have hrest : Joins (x ++ ("=" ++ text)) ([.operand (.name x)] ++ .assign :: row) :=
    (joins_name hx).append hassign (separate_assign text)
  refine ⟨.ofWord "let" :: ([.operand (.name x)] ++ .assign :: row), ?_, ?_⟩
  · have htext : "let " ++ x ++ "=" ++ text = "let" ++ " " ++ (x ++ ("=" ++ text)) := by
      simp only [String.append_assoc]
      rfl
    rw [htext]
    exact (joins_blank (isWord_of_all (by decide) (by decide)) hrest).reads
  · have hlet : Piece.ofWord "let" = .keyword .declare := rfl
    rw [hlet, List.singleton_append, statement?_declare, hresolve]
    rfl

/-! ## Blocks -/

theorem lexes_statements {texts : List String} {ss : List Statement}
    (h : List.Forall₂ IsStatement texts ss) :
    ∃ ts, Lexes (";".intercalate texts).toList ts ∧
      ∀ {β : Type} {at' : List Statement → State} {finish : State → Option β}
        {result : List Statement → β}, Collects statement? .semicolon at' finish result →
          (run (at' []) ts).bind finish = some (result ss) := by
  have hnext : ∀ rest, next? (';' :: rest) = some (.semicolon, rest) := fun _ => rfl
  have hs : ";".toList = [';'] := rfl
  obtain ⟨ts, hts, hcollected⟩ := lexes_intercalate hs (by decide) (by decide) hnext h
  exact ⟨ts, hts, fun hcollects => by simpa using hcollected hcollects []⟩

theorem statements?_pushAll {row : List Piece} {f : Frame} {s : Statement} (hf : f.row = [])
    (h : statement? row = some s) :
    ({ f with row := row.reverse ++ f.row } : Frame).statements? =
      some (s :: f.statements).reverse := by
  have hne : row ≠ [] := by
    rintro rfl
    cases h
  obtain ⟨p, row', hrow, hback⟩ := exists_reverse_cons hne
  rw [hf, List.append_nil, hrow, Frame.statements?]
  simp only [hback, h]
  rfl

/-- A semicolon in a block ends a statement. -/
theorem step_semicolon {k : State} {row : List Piece} {s : Statement}
    (hopening : k.top.opening = .block) (hrow : k.top.row = []) (h : statement? row = some s) :
    step (k.pushAll row) .semicolon =
      some { k with top := { k.top with statements := s :: k.top.statements, row := [] } } := by
  simp [step, State.pushAll, hopening, hrow, h]

/-- The statements between braces, up to the closing one. -/
theorem collects_block (k : State) :
    Collects statement? .semicolon (fun done => ⟨⟨.block, [], done, []⟩, k.top :: k.below⟩)
      (fun k' => step k' (.closing .brace)) (fun ss => k.push (.block ss)) where
  ready done := by
    intro p hp
    cases hp
  next h := step_semicolon rfl rfl h
  empty done := rfl
  last {done row s} h := by
    have hstatements := statements?_pushAll (f := ⟨.block, [], done, []⟩) rfl h
    simp only [step_closing, closeBracket, State.pushAll, hstatements]
    rfl

/-- The statements of a whole script, up to its end. -/
theorem collects_script :
    Collects statement? .semicolon (fun done => ⟨⟨.block, [], done, []⟩, []⟩)
      (fun k => match k.below with
        | [] => k.top.statements?
        | _ => none) id where
  ready done := by
    intro p hp
    cases hp
  next h := step_semicolon rfl rfl h
  empty done := rfl
  last {done row s} h := statements?_pushAll (f := ⟨.block, [], done, []⟩) rfl h

theorem toList_braced (text : String) :
    (Script.braced text).toList = '\x7b' :: (text.toList ++ ['\x7d']) := by
  simp [Script.braced]

theorem separate_braced (text : String) : Separate (Script.braced text) :=
  separate_of_cons (toList_braced text) (by decide)

theorem separate_parenthesized (text : String) : Separate (Script.parenthesized text) :=
  separate_of_cons (toList_parenthesized text) (by decide)

/-- Braces close a block whatever stands behind them, so a word may follow. -/
theorem exists_lex_braced {texts : List String} {ss : List Statement}
    (h : List.Forall₂ IsStatement texts ss) :
    ∃ ts, (∀ rest, lex ((Script.braced (";".intercalate texts)).toList ++ rest) =
        (lex rest).map (ts ++ ·)) ∧ ∀ k, run k ts = some (k.push (.block ss)) := by
  obtain ⟨ts, hts, hcollected⟩ := lexes_statements h
  refine ⟨.opening .brace :: (ts ++ [.closing .brace]), fun rest => ?_, fun k => ?_⟩
  · have hopen : ∀ rest, next? ('\x7b' :: rest) = some (.opening .brace, rest) := fun _ => rfl
    have hclose : ∀ rest, next? ('\x7d' :: rest) = some (.closing .brace, rest) := fun _ => rfl
    have hlex := lex_bracketed hts (by decide) (by decide) (by decide) hopen hclose rest
    rw [toList_braced]
    simpa using hlex
  · have hopen : openBracket .brace k = ⟨⟨.block, [], [], []⟩, k.top :: k.below⟩ := rfl
    have hblock := hcollected (collects_block k)
    rw [run_opening, hopen, run_append]
    simpa [run_cons, run_nil] using hblock

theorem joins_braced {texts : List String} {ss : List Statement}
    (h : List.Forall₂ IsStatement texts ss) :
    Joins (Script.braced (";".intercalate texts)) [.block ss] := by
  obtain ⟨ts, hlex, hrun⟩ := exists_lex_braced h
  exact ⟨ts, fun rest _ => hlex rest, hrun⟩

theorem joins_braced_else {texts others : List String} {ss os : List Statement}
    (h : List.Forall₂ IsStatement texts ss) (hothers : List.Forall₂ IsStatement others os) :
    Joins (Script.braced (";".intercalate texts) ++
      ("else" ++ Script.braced (";".intercalate others)))
      [.block ss, .keyword .otherwise, .block os] := by
  obtain ⟨ts, hlex, hrun⟩ := exists_lex_braced h
  have helse : Joins ("else" ++ Script.braced (";".intercalate others))
      ([.ofWord "else"] ++ [.block os]) :=
    (joins_word (isWord_of_all (by decide) (by decide))).append (joins_braced hothers)
      (separate_braced _)
  obtain ⟨us, hus, hrun'⟩ := helse
  refine ⟨ts ++ us, fun rest hrest => ?_, fun k => ?_⟩
  · rw [String.toList_append, List.append_assoc, hlex, hus rest hrest, Option.map_map]
    congr 1
    funext vs
    simp
  · rw [run_append, hrun, Option.bind_some, hrun']
    rfl

/-- A keyword and a condition in parentheses. -/
theorem joins_guard {w test : String} {condition : Expr} {keyword : Keyword} (hw : IsWord w)
    (hpiece : Piece.ofWord w = .keyword keyword) (htest : IsValue test condition) :
    Joins (w ++ Script.parenthesized test) [.keyword keyword, .operand condition] := by
  have hword := joins_word hw
  rw [hpiece] at hword
  exact hword.read (isOperand_parenthesized htest).reads (separate_parenthesized test)
    ⟨_, rfl, rfl⟩

section

variable {test : String} {texts others : List String} {condition : Expr}
  {ss os : List Statement}

theorem isStatement_branch (htest : IsValue test condition)
    (h : List.Forall₂ IsStatement texts ss) :
    IsStatement ("if" ++ Script.parenthesized test ++ Script.braced (";".intercalate texts))
      (.branch condition ss none) := by
  have hguard := joins_guard (w := "if") (isWord_of_all (by decide) (by decide)) rfl htest
  exact ⟨_, (hguard.append (joins_braced h) (separate_braced _)).reads, rfl⟩

theorem isStatement_branchElse (htest : IsValue test condition)
    (h : List.Forall₂ IsStatement texts ss) (hothers : List.Forall₂ IsStatement others os) :
    IsStatement ("if" ++ Script.parenthesized test ++ Script.braced (";".intercalate texts) ++
      "else" ++ Script.braced (";".intercalate others)) (.branch condition ss (some os)) := by
  have hguard := joins_guard (w := "if") (isWord_of_all (by decide) (by decide)) rfl htest
  have hseparate : Separate (Script.braced (";".intercalate texts) ++
      ("else" ++ Script.braced (";".intercalate others))) :=
    separate_of_cons (by rw [String.toList_append, toList_braced]; rfl) (by decide)
  refine ⟨[.keyword .branch, .operand condition, .block ss, .keyword .otherwise, .block os],
    ?_, rfl⟩
  have htext : "if" ++ Script.parenthesized test ++ Script.braced (";".intercalate texts) ++
      "else" ++ Script.braced (";".intercalate others) = "if" ++ Script.parenthesized test ++
        (Script.braced (";".intercalate texts) ++
          ("else" ++ Script.braced (";".intercalate others))) := by
    simp only [String.append_assoc]
  rw [htext]
  exact (hguard.append (joins_braced_else h hothers) hseparate).reads

theorem isStatement_loop (htest : IsValue test condition)
    (h : List.Forall₂ IsStatement texts ss) :
    IsStatement ("while" ++ Script.parenthesized test ++ Script.braced (";".intercalate texts))
      (.loop condition ss) := by
  have hguard := joins_guard (w := "while") (isWord_of_all (by decide) (by decide)) rfl htest
  exact ⟨_, (hguard.append (joins_braced h) (separate_braced _)).reads, rfl⟩

end

theorem names?_map_name (names : List String) : names? (names.map .name) = some names := by
  induction names with
  | nil => rfl
  | cons x names ih => rw [List.map_cons, names?, ih]; rfl

theorem isStatement_function {x : String} {parameters texts : List String} {ss : List Statement}
    (hx : IsName x) (hparameters : ∀ y ∈ parameters, IsName y)
    (h : List.Forall₂ IsStatement texts ss) :
    IsStatement ("function " ++ x ++ Script.parenthesized (",".intercalate parameters) ++
      Script.braced (";".intercalate texts)) (.function x parameters ss) := by
  have hvalues : List.Forall₂ IsValue parameters (parameters.map .name) := by
    rw [List.forall₂_map_right_iff, List.forall₂_same]
    exact fun y hy => (isOperand_name (hparameters y hy)).isValue
  have hhead := (joins_call hx.isWord hx.ofWord hvalues).append (joins_braced h)
    (separate_braced _)
  have htext : "function " ++ x ++ Script.parenthesized (",".intercalate parameters) ++
      Script.braced (";".intercalate texts) = "function" ++ " " ++
        (x ++ Script.parenthesized (",".intercalate parameters) ++
          Script.braced (";".intercalate texts)) := by
    simp only [String.append_assoc]
    rfl
  refine ⟨[.ofWord "function", .operand (.call (.name x) (parameters.map .name)), .block ss],
    ?_, ?_⟩
  · rw [htext]
    exact (joins_blank (isWord_of_all (by decide) (by decide)) hhead).reads
  · have hfunction : Piece.ofWord "function" = .keyword .function := rfl
    rw [hfunction, statement?_function, names?_map_name]
    rfl

/-! ## Scripts -/

/-- Statements with semicolons between them are read as these statements. -/
theorem read_intercalate {texts : List String} {ss : List Statement}
    (h : List.Forall₂ IsStatement texts ss) : read (";".intercalate texts) = some ss := by
  obtain ⟨ts, hts, hcollected⟩ := lexes_statements h
  have hlex : lex (";".intercalate texts).toList = some ts := by
    have hall := hts [] (by simp)
    simpa [lex_nil] using hall
  rw [read, hlex]
  exact hcollected collects_script

end Js

end Pictoscript
