import Pictoscript.Tape

/-! # Reading characters off a list

A `Cursor` is a tape without its offsets: the characters still to come and the
position of the first of them. Nothing has to be sliced here, and what a run of
characters consists of can be said with `takeWhile` and `dropWhile`.
-/

namespace Pictoscript

structure Cursor where
  rest : List Char
  position : Position
deriving DecidableEq, Repr

namespace Cursor

def ofText (text : String) : Cursor := ⟨text.toList, .start⟩

def skip (p : Char → Bool) (k : Cursor) : Cursor :=
  ⟨k.rest.dropWhile p, (k.rest.takeWhile p).foldl Position.advance k.position⟩

def skipBlanks (k : Cursor) : Cursor := k.skip isBlank

def atEnd (k : Cursor) : Bool := k.rest.all isBlank

def unit? (k : Cursor) : Option (Located (List Char) × Cursor) :=
  match k.skipBlanks.rest.takeWhile (fun c => !isBlank c) with
  | [] => none
  | c :: cs =>
    some (⟨c :: cs, k.skipBlanks.position⟩, k.skipBlanks.skip fun c => !isBlank c)

theorem length_skip_le (p : Char → Bool) (k : Cursor) :
    (k.skip p).rest.length ≤ k.rest.length :=
  (List.dropWhile_suffix p).length_le

theorem length_add_length_skip (p : Char → Bool) (k : Cursor) :
    (k.rest.takeWhile p).length + (k.skip p).rest.length = k.rest.length := by
  rw [skip, ← List.length_append, List.takeWhile_append_dropWhile]

/-- A unit is not empty, so taking it leaves fewer characters. -/
theorem length_lt_of_unit? {k after : Cursor} {u : Located (List Char)}
    (h : k.unit? = some (u, after)) : after.rest.length < k.rest.length := by
  have hblank := length_skip_le isBlank k
  have hunit := length_add_length_skip (fun c => !isBlank c) k.skipBlanks
  rw [unit?] at h
  split at h
  · cases h
  · next c cs hc =>
    cases h
    rw [hc, List.length_cons] at hunit
    rw [skipBlanks] at hunit ⊢
    omega

/-- What a quotation took from the text. -/
structure Quotation where
  content : List Char
  closed : Bool
  after : Cursor
deriving DecidableEq, Repr

/-- Takes units up to a closing quote, or all that are left. -/
def quotation (k : Cursor) : Quotation :=
  match _h : k.unit? with
  | none => ⟨[], false, k.skipBlanks⟩
  | some (u, after) =>
    if isQuote u.value then ⟨[], true, after⟩
    else
      let q := after.quotation
      { q with content := u.value ++ q.content }
termination_by k.rest.length
decreasing_by exact length_lt_of_unit? _h

/-- A quotation left open is illegal from its opening quote on. -/
def Quotation.token (q : Quotation) : Token :=
  if q.closed then .text (String.ofList q.content)
  else .illegal ("📋" ++ String.ofList q.content)

/-- The next token before the end of the text and the cursor behind it. -/
def next? (k : Cursor) : Option (Located Token × Cursor) :=
  match k.unit? with
  | none => none
  | some (u, after) =>
    match Word.spelled? u.value with
    | some w =>
      if w.token = .quote then some (⟨after.quotation.token, u.position⟩, after.quotation.after)
      else some (⟨w.token, u.position⟩, after)
    | none =>
      if Pictograph.isSymbol u.value then
        some (⟨.symbol (String.ofList u.value), u.position⟩, after)
      else some (⟨.illegal (String.ofList u.value), u.position⟩, after)

/-- The next token, which stays `endOfInput` once the text is used up. -/
def next (k : Cursor) : Located Token × Cursor :=
  k.next?.getD (⟨.endOfInput, k.skipBlanks.position⟩, k.skipBlanks)

theorem length_quotation_after_le (k : Cursor) :
    k.quotation.after.rest.length ≤ k.rest.length := by
  fun_induction quotation k with
  | case1 k _ => exact length_skip_le isBlank k
  | case2 k u after h _ => exact Nat.le_of_lt (length_lt_of_unit? h)
  | case3 k u after h _ q ih => exact Nat.le_trans ih (Nat.le_of_lt (length_lt_of_unit? h))

/-- Each token takes at least one character. -/
theorem length_lt_of_next? {k after : Cursor} {t : Located Token}
    (h : k.next? = some (t, after)) : after.rest.length < k.rest.length := by
  rw [next?] at h
  split at h
  · cases h
  · next u after' hu =>
    have hlt := length_lt_of_unit? hu
    have hq := length_quotation_after_le after'
    split at h <;> split at h <;> cases h <;> omega

end Cursor

def Cursor.tokens (k : Cursor) : Tokens :=
  match _h : k.next? with
  | none => ⟨[], k.skipBlanks.position⟩
  | some (t, after) =>
    let ts := after.tokens
    { ts with items := t :: ts.items }
termination_by k.rest.length
decreasing_by exact Cursor.length_lt_of_next? _h

end Pictoscript
