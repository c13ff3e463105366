import Pictoscript.Tape
import Pictoscript.Script

/-! # Tokens of a script

How a script is cut into tokens by the rules of JavaScript, as far as scripts
need them. The longest mark wins, a word is a maximal run of other characters,
and a text literal ends at the first quote that is not escaped. Marks that begin
a comment or an operator without counterpart here are refused, so that nothing
is read in another way than JavaScript does.
-/

namespace Pictoscript

namespace Js

inductive Bracket where
  | paren
  | square
  | brace
deriving DecidableEq

inductive Token where
  /-- A number, a keyword or a name. -/
  | word (w : String)
  /-- A text literal, decoded. -/
  | text (value : String)
  | operator (op : Operator)
  | assign
  | comma
  | semicolon
  | opening (b : Bracket)
  | closing (b : Bracket)
deriving DecidableEq

/-- The marks with the token that each one is, longer ones first. A mark without
token is refused. -/
def marks : List (List Char × Option Token) :=
  [(['=', '=', '='], some (.operator .equal)), (['!', '=', '='], none),
   (['/', '/'], none), (['/', '*'], none), (['+', '+'], none), (['-', '-'], none),
   (['*', '*'], none), (['=', '='], none), (['!', '='], none), (['=', '>'], none),
   (['>', '='], some (.operator .greaterOrEqual)), (['<', '='], some (.operator .lessOrEqual)),
   (['&', '&'], some (.operator .and)), (['|', '|'], some (.operator .or)),
   (['>'], some (.operator .greater)), (['<'], some (.operator .less)),
   (['+'], some (.operator .add)), (['-'], some (.operator .subtract)),
   (['*'], some (.operator .multiply)), (['/'], some (.operator .divide)),
   (['!'], some (.operator .not)), (['='], some .assign), ([','], some .comma),
   ([';'], some .semicolon), (['('], some (.opening .paren)), ([')'], some (.closing .paren)),
   (['['], some (.opening .square)), ([']'], some (.closing .square)),
   (['\x7b'], some (.opening .brace)), (['\x7d'], some (.closing .brace))]

/-- Blanks, and the characters that begin a mark or a literal. -/
def separators : List Char :=
  [' ', '\t', '\n', '\r', '"', '=', '!', '>', '<', '+', '-', '*', '/', '&', '|', ',', ';', '(',
    ')', '[', ']', '\x7b', '\x7d']

def isWordChar (c : Char) : Bool := !separators.contains c

/-- The characters of a class are parts of words if no separator is in it. -/
theorem isWordChar_of_class (p : Char → Bool) (h : separators.all (fun d => !p d) = true) {c : Char}
    (hc : p c = true) : isWordChar c = true := by
  rw [isWordChar, Bool.not_eq_true', List.contains_eq_mem, decide_eq_false_iff_not]
  intro hmem
  have hnot := List.all_eq_true.mp h c hmem
  rw [hc] at hnot
  cases hnot

def unescape : Char → Char
  | 'n' => '\n'
  | 'r' => '\r'
  | 't' => '\t'
  | c => c

/-- Reads a text literal behind its opening quote. No line ends within it. -/
def literal? : List Char → Option (List Char × List Char)
  | [] => none
  | [c] => if c = '"' then some ([], []) else none
  | c :: d :: cs =>
    if c = '"' then some ([], d :: cs)
    else if c = '\\' then (literal? cs).map fun (value, rest) => (unescape d :: value, rest)
    else if c = '\n' ∨ c = '\r' then none
    else (literal? (d :: cs)).map fun (value, rest) => (c :: value, rest)

/-- The mark or the word at the front of a text. -/
def unquoted? (cs : List Char) : Option (Token × List Char) :=
  match marks.find? fun mark => mark.1.isPrefixOf cs with
  | some (mark, some t) => some (t, cs.drop mark.length)
  | some (_, none) => none
  | none =>
    match cs.takeWhile isWordChar with
    | [] => none
    | c :: w => some (.word (String.ofList (c :: w)), cs.dropWhile isWordChar)

/-- The token at the front of a text that does not begin with a blank. -/
def next? : List Char → Option (Token × List Char)
  | '"' :: cs => (literal? cs).map fun (value, rest) => (.text (String.ofList value), rest)
  | cs => unquoted? cs

theorem length_lt_of_literal? {cs value rest : List Char} (h : literal? cs = some (value, rest)) :
    rest.length < cs.length := by
  fun_induction literal? cs generalizing value with
  | case1 => cases h
  | case2 =>
      cases h
      simp
  | case3 => cases h
  | case4 d cs =>
      cases h
      simp
  | case5 d cs _ ih =>
      obtain ⟨⟨value', rest'⟩, hread, heq⟩ := Option.map_eq_some_iff.mp h
      cases heq
      have hlt := ih hread
      simp only [List.length_cons]
      omega
  | case6 => cases h
  | case7 c d cs _ _ _ ih =>
      obtain ⟨⟨value', rest'⟩, hread, heq⟩ := Option.map_eq_some_iff.mp h
      cases heq
      exact Nat.lt_succ_of_lt (ih hread)

theorem length_lt_of_unquoted? {cs rest : List Char} {t : Token}
    (h : unquoted? cs = some (t, rest)) : rest.length < cs.length := by
  have hmarks : ∀ mark ∈ marks, mark.1 ≠ [] := by decide
  rw [unquoted?] at h
  split at h
  · next mark t' hmark =>
    cases h
    have hpos : 0 < mark.length :=
      List.length_pos_iff.mpr (hmarks _ (List.mem_of_find?_eq_some hmark))
    have hfront : mark.isPrefixOf cs = true := by simpa using List.find?_some hmark
    have hlength : mark.length ≤ cs.length := (List.isPrefixOf_iff_prefix.mp hfront).length_le
    rw [List.length_drop]
    omega
  · cases h
  · split at h
    · cases h
    · next c w hword =>
      cases h
      have hsplit : cs.takeWhile isWordChar ++ cs.dropWhile isWordChar = cs :=
        List.takeWhile_append_dropWhile
      have hlength := congrArg List.length hsplit
      rw [hword, List.length_append, List.length_cons] at hlength
      omega

theorem length_lt_of_next? {cs rest : List Char} {t : Token} (h : next? cs = some (t, rest)) :
    rest.length < cs.length := by
  unfold next? at h
  split at h
  · obtain ⟨⟨value, rest'⟩, hread, heq⟩ := Option.map_eq_some_iff.mp h
    cases heq
    have hliteral := length_lt_of_literal? hread
    rw [List.length_cons]
    omega
  · exact length_lt_of_unquoted? h

def lex (cs : List Char) : Option (List Token) :=
  match cs with
  | [] => some []
  | c :: cs =>
    if isBlank c then lex cs
    else
      match _h : next? (c :: cs) with
      | none => none
      | some (t, rest) => (lex rest).map (t :: ·)
termination_by cs.length
decreasing_by
  · simp
  · exact length_lt_of_next? _h

theorem lex_nil : lex [] = some [] := by
  rw [lex]

theorem lex_blank {c : Char} {cs : List Char} (h : isBlank c = true) : lex (c :: cs) = lex cs := by
  rw [lex, if_pos h]

/-- A token at the front is the first token. -/
theorem lex_of_next? {c : Char} {cs rest : List Char} {t : Token} (hc : isBlank c = false)
    (h : next? (c :: cs) = some (t, rest)) : lex (c :: cs) = (lex rest).map (t :: ·) := by
  rw [lex, if_neg (by simp [hc])]
  split
  · next hnone => rw [h] at hnone; cases hnone
  · next hsome =>
    rw [h] at hsome
    cases hsome
    rfl

/-! ## Single tokens -/

theorem literal?_escape_append (c d : Char) (cs : List Char) :
    literal? (Script.escape c ++ d :: cs) =
      (literal? (d :: cs)).map fun (value, rest) => (c :: value, rest) := by
  unfold Script.escape
  split
  · rfl
  · rfl
  · rfl
  · rfl
  · rfl
  · next hquote hbackslash hline hreturn htab =>
    rw [List.singleton_append, literal?, if_neg hquote, if_neg hbackslash,
      if_neg (not_or.mpr ⟨hline, hreturn⟩)]

/-- A text literal is decoded to the text that it denotes. -/
theorem literal?_escape (value rest : List Char) :
    literal? (value.flatMap Script.escape ++ '"' :: rest) = some (value, rest) := by
  induction value with
  | nil =>
      rw [List.flatMap_nil, List.nil_append]
      cases rest <;> rfl
  | cons c value ih =>
      have hne : value.flatMap Script.escape ++ '"' :: rest ≠ [] := by simp
      obtain ⟨d, cs, hcs⟩ := List.exists_cons_of_ne_nil hne
      rw [List.flatMap_cons, List.append_assoc, hcs, literal?_escape_append, ← hcs, ih]
      rfl

def opensOperand (c : Char) : Bool := isWordChar c || c == '"' || c == '(' || c == '['

theorem ne_of_opensOperand {c d : Char} (hc : opensOperand c = true) (hd : opensOperand d = false) :
    d ≠ c := by
  rintro rfl
  rw [hc] at hd
  cases hd

/-- An operator ends before an operand: no longer mark goes on with the first
character of one. -/
theorem next?_operator (op : Operator) {c : Char} (hc : opensOperand c = true)
    (cs : List Char) : next? (op.script.toList ++ c :: cs) = some (.operator op, c :: cs) := by
  have hequal : '=' ≠ c := ne_of_opensOperand hc (by decide)
  have hslash : '/' ≠ c := ne_of_opensOperand hc (by decide)
  have hstar : '*' ≠ c := ne_of_opensOperand hc (by decide)
  have hplus : '+' ≠ c := ne_of_opensOperand hc (by decide)
  have hminus : '-' ≠ c := ne_of_opensOperand hc (by decide)
  cases op <;> simp [Operator.script, next?, unquoted?, marks, List.isPrefixOf, hequal, hslash,
    hstar, hplus, hminus]

theorem next?_assign {c : Char} (hc : opensOperand c = true ∨ c = '!') (cs : List Char) :
    next? ('=' :: c :: cs) = some (.assign, c :: cs) := by
  have hequal : '=' ≠ c := by
    rcases hc with hc | rfl
    · exact ne_of_opensOperand hc (by decide)
    · decide
  have hgreater : '>' ≠ c := by
    rcases hc with hc | rfl
    · exact ne_of_opensOperand hc (by decide)
    · decide
  simp [next?, unquoted?, marks, List.isPrefixOf, hequal, hgreater]

theorem unquoted?_word {c : Char} {w rest : List Char} (hw : ∀ d ∈ c :: w, isWordChar d = true)
    (hrest : ∀ d ∈ rest.head?, isWordChar d = false) :
    unquoted? (c :: w ++ rest) = some (.word (String.ofList (c :: w)), rest) := by
  have hmarks : ∀ mark ∈ marks, mark.1 ≠ [] ∧ mark.1.all (!isWordChar ·) = true := by
    decide
  have hnone : (marks.find? fun mark => mark.1.isPrefixOf (c :: w ++ rest)) = none := by
    rw [List.find?_eq_none]
    rintro ⟨mark, t⟩ hmark
    obtain ⟨hne, hd⟩ := hmarks _ hmark
    obtain ⟨d, ds, rfl⟩ := List.exists_cons_of_ne_nil hne
    have hdc : d ≠ c := by
      rintro rfl
      have hword := List.all_eq_true.mp hd d (List.mem_cons_self ..)
      rw [hw d (List.mem_cons_self ..)] at hword
      cases hword
    simp [List.isPrefixOf, hdc]
  have htake : (c :: w ++ rest).takeWhile isWordChar = c :: w ∧
      (c :: w ++ rest).dropWhile isWordChar = rest := by
    rw [List.takeWhile_append_of_pos hw, List.dropWhile_append_of_pos hw]
    cases rest with
    | nil => simp
    | cons d rest => simp [hrest d rfl]
  rw [unquoted?, hnone, htake.1, htake.2]

/-! ## Pieces of text -/

/-- The characters are cut into the tokens whatever stands behind them, as long
as it does not go on with a word. -/
def Lexes (cs : List Char) (ts : List Token) : Prop :=
  ∀ rest : List Char, (∀ c ∈ rest.head?, isWordChar c = false) →
    lex (cs ++ rest) = (lex rest).map (ts ++ ·)

theorem forall_head?_cons {c : Char} (h : isWordChar c = false) (cs : List Char) :
    ∀ d ∈ (c :: cs).head?, isWordChar d = false := by
  intro d hd
  obtain rfl := Option.mem_some.mp hd
  exact h

theorem lexes_nil : Lexes [] [] := by
  intro rest _
  simp

theorem Lexes.append {as bs : List Char} {ts us : List Token} (ha : Lexes as ts)
    (hb : Lexes bs us) (hbs : ∀ c ∈ bs.head?, isWordChar c = false) :
    Lexes (as ++ bs) (ts ++ us) := by
  intro rest hrest
  have hhead : ∀ c ∈ (bs ++ rest).head?, isWordChar c = false := by
    cases bs with
    | nil => exact hrest
    | cons b bs => exact hbs
  rw [List.append_assoc, ha (bs ++ rest) hhead, hb rest hrest, Option.map_map]
  congr 1
  funext vs
  simp

/-- A token in front of characters that it does not run into. -/
theorem Lexes.token {c : Char} {bs : List Char} {t : Token} {us : List Token}
    (hb : Lexes bs us) (cs : List Char) (hc : isBlank c = false)
    (h : ∀ rest, (∀ d ∈ rest.head?, isWordChar d = false) →
      next? (c :: (cs ++ (bs ++ rest))) = some (t, bs ++ rest)) :
    Lexes (c :: (cs ++ bs)) (t :: us) := by
  intro rest hrest
  rw [List.cons_append, List.append_assoc, lex_of_next? hc (h rest hrest), hb rest hrest,
    Option.map_map]
  rfl

/-- A mark that no longer one begins with. -/
theorem Lexes.mark {c : Char} {cs : List Char} {t : Token} {ts : List Token} (h : Lexes cs ts)
    (hc : isBlank c = false) (hnext : ∀ rest, next? (c :: rest) = some (t, rest)) :
    Lexes (c :: cs) (t :: ts) :=
  h.token [] hc fun _ _ => hnext _

theorem Lexes.blank {cs : List Char} {ts : List Token} (h : Lexes cs ts) :
    Lexes (' ' :: cs) ts := by
  intro rest hrest
  rw [List.cons_append, lex_blank (by decide), h rest hrest]

theorem Lexes.operator (op : Operator) {c : Char} {cs : List Char} {ts : List Token}
    (h : Lexes (c :: cs) ts) (hc : opensOperand c = true) :
    Lexes (op.script.toList ++ c :: cs) (.operator op :: ts) := by
  have hnext : ∀ rest, next? (op.script.toList ++ (c :: cs ++ rest)) =
      some (.operator op, c :: cs ++ rest) := fun rest => next?_operator op hc (cs ++ rest)
  cases op <;> exact h.token _ (by decide) fun rest _ => hnext rest

theorem Lexes.assign {c : Char} {cs : List Char} {ts : List Token} (h : Lexes (c :: cs) ts)
    (hc : opensOperand c = true ∨ c = '!') : Lexes ('=' :: c :: cs) (.assign :: ts) :=
  h.token [] (by decide) fun rest _ => next?_assign hc (cs ++ rest)

/-- A word of the script, as far as its characters go. -/
structure IsWord (w : String) : Prop where
  ne_empty : w ≠ ""
  chars : ∀ c ∈ w.toList, isWordChar c = true

theorem isWord_of_all {w : String} (hne : w ≠ "") (h : w.toList.all isWordChar = true) :
    IsWord w := ⟨hne, List.all_eq_true.mp h⟩

theorem isBlank_of_isWordChar {c : Char} (h : isWordChar c = true) : isBlank c = false := by
  cases hblank : isBlank c with
  | false => rfl
  | true =>
      simp only [isBlank, Bool.or_eq_true, beq_iff_eq] at hblank
      rcases hblank with ((rfl | rfl) | rfl) | rfl <;> revert h <;> decide

theorem lexes_word {w : String} (h : IsWord w) : Lexes w.toList [.word w] := by
  intro rest hrest
  have hne : w.toList ≠ [] := by simpa using h.ne_empty
  obtain ⟨c, cs, hw⟩ := List.exists_cons_of_ne_nil hne
  have hchars : ∀ d ∈ c :: cs, isWordChar d = true := hw ▸ h.chars
  have hword : w = String.ofList (c :: cs) := by rw [← hw, String.ofList_toList]
  have hquote : c ≠ '"' := by
    rintro rfl
    exact absurd (hchars _ (List.mem_cons_self ..)) (by decide)
  have hnext : next? (c :: (cs ++ rest)) = some (.word w, rest) := by
    have hunquoted := unquoted?_word hchars hrest
    rw [List.cons_append, ← hword] at hunquoted
    unfold next?
    split
    · next heq => exact absurd (List.cons.inj heq).1 hquote
    · exact hunquoted
  rw [hw, List.cons_append,
    lex_of_next? (isBlank_of_isWordChar (hchars c (List.mem_cons_self ..))) hnext]
  rfl

theorem lexes_quoted (value : String) : Lexes (Script.quoted value).toList [.text value] := by
  intro rest _
  have hchars : (Script.quoted value).toList ++ rest =
      '"' :: (value.toList.flatMap Script.escape ++ '"' :: rest) := by
    simp [Script.quoted]
  have hnext : next? ('"' :: (value.toList.flatMap Script.escape ++ '"' :: rest)) =
      some (.text value, rest) := by
    simp [next?, literal?_escape]
  rw [hchars, lex_of_next? (by decide) hnext]
  rfl

end Js

end Pictoscript
