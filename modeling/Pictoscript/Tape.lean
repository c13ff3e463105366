import Pictoscript.Vocabulary

/-! # From text to tokens

A `Tape` is a text with a mark in it: the byte offset of the first character still to
be read, and the position of this character. Everything is read through the offset. A
slice fails if an end of it lies within a character or outside of the text, and what
reads it goes on as it does at the end of the text. Tokens are pulled one at a time;
`tokenize` pulls until the text is used up.

A unit is a maximal run of characters that are not blank. A unit that spells
`📋` opens a quotation, which takes the units up to the next such unit and
drops the blanks between them. No text is refused: what has no meaning becomes
an `illegal` token, and so does a quotation that is never closed.
-/

namespace Pictoscript

/-- The four characters that separate units. -/
def isBlank (c : Char) : Bool := c == ' ' || c == '\t' || c == '\n' || c == '\r'

def isQuote (unit : List Char) : Bool :=
  (Word.spelled? unit).any fun w => w.token == .quote

/-- The text between two byte offsets, if characters begin or end at both. -/
def slice? (source : String) (first last : String.Pos.Raw) : Option String := do
  let p ← source.pos? first
  let q ← source.pos? last
  let slice ← source.slice? p q
  return slice.copy

structure Mark where
  offset : String.Pos.Raw
  position : Position

structure Tape where
  source : String
  mark : Mark

namespace Tape

def ofText (source : String) : Tape := ⟨source, ⟨0, .start⟩⟩

/-- The text from the mark on, which is empty if no character begins at the mark. -/
def rest (t : Tape) : String.Slice :=
  ((t.source.pos? t.mark.offset).map t.source.sliceFrom).getD "".toSlice

def current? (t : Tape) : Option Char := t.rest.front?

def atEnd (t : Tape) : Bool := t.rest.copy.toList.all isBlank

def bump (t : Tape) : Tape :=
  match t.current? with
  | none => t
  | some c => { t with mark := ⟨t.mark.offset + c, t.mark.position.advance c⟩ }

/-- How many bytes are still to be read. -/
def left (t : Tape) : Nat := t.source.utf8ByteSize - t.mark.offset.byteIdx

theorem offset_eq_of_pos? {source : String} {offset : String.Pos.Raw} {p : source.Pos}
    (h : source.pos? offset = some p) : p.offset = offset := by
  obtain ⟨q, hq, rfl⟩ := Option.map_eq_some_iff.mp h
  rw [String.Slice.pos?] at hq
  split at hq <;> cases hq
  rfl

/-- Behind the last byte there is no character. -/
theorem offset_lt_of_current? {t : Tape} {c : Char} (h : t.current? = some c) :
    t.mark.offset.byteIdx < t.source.utf8ByteSize := by
  rw [current?, rest, String.Slice.front?_eq] at h
  cases hpos : t.source.pos? t.mark.offset with
  | none => simp [hpos] at h
  | some p =>
      rw [hpos, Option.map_some, Option.getD_some] at h
      have hsplits := p.splits
      have hbehind : (t.source.sliceFrom p).copy.utf8ByteSize ≠ 0 := by
        rw [ne_eq, String.utf8ByteSize_eq_zero_iff]
        intro hempty
        simp [hempty] at h
      have hsize := congrArg String.utf8ByteSize hsplits.eq_append
      have hoffset := congrArg String.Pos.Raw.byteIdx hsplits.offset_eq_rawEndPos
      rw [offset_eq_of_pos? hpos, String.byteIdx_rawEndPos] at hoffset
      rw [String.utf8ByteSize_append] at hsize
      omega

theorem left_bump_lt {t : Tape} {c : Char} (h : t.current? = some c) : t.bump.left < t.left := by
  have hlt := offset_lt_of_current? h
  have hpos := c.utf8Size_pos
  simp only [bump, h, left, String.Pos.Raw.byteIdx_add_char]
  omega

theorem left_bump_lt_of_any {t : Tape} {p : Char → Bool} (h : t.current?.any p = true) :
    t.bump.left < t.left := by
  cases hc : t.current? with
  | none => simp [hc] at h
  | some c => exact left_bump_lt hc

/-- Moves the mark over the longest run of characters that satisfy `p`. -/
def skip (p : Char → Bool) (t : Tape) : Tape :=
  if _h : t.current?.any p = true then t.bump.skip p else t
termination_by t.left
decreasing_by exact left_bump_lt_of_any _h

theorem left_skip_le (p : Char → Bool) (t : Tape) : (t.skip p).left ≤ t.left := by
  fun_induction skip p t with
  | case1 t h ih => exact Nat.le_trans ih (Nat.le_of_lt (left_bump_lt_of_any h))
  | case2 t h => exact Nat.le_refl _

/-- A mark that has moved has fewer bytes behind it. -/
theorem left_skip_lt {p : Char → Bool} {t : Tape}
    (h : (t.skip p).mark.offset ≠ t.mark.offset) : (t.skip p).left < t.left := by
  rw [skip] at h ⊢
  split at h
  · next hany =>
    rw [dif_pos hany]
    exact Nat.lt_of_le_of_lt (left_skip_le p t.bump) (left_bump_lt_of_any hany)
  · exact absurd rfl h

/-- Reads the next unit, if there is one. -/
def unit? (t : Tape) : Option (Located String) × Tape :=
  let first := t.skip isBlank
  let last := first.skip fun c => !isBlank c
  if last.mark.offset = first.mark.offset then (none, last)
  else
    ((slice? t.source first.mark.offset last.mark.offset).map (⟨·, first.mark.position⟩), last)

theorem left_unit?_le (t : Tape) : t.unit?.2.left ≤ t.left := by
  have hle := Nat.le_trans (left_skip_le (fun c => !isBlank c) (t.skip isBlank))
    (left_skip_le isBlank t)
  rw [unit?]
  split <;> exact hle

/-- A unit is not empty, so taking it leaves fewer bytes. -/
theorem left_lt_of_unit? {t after : Tape} {u : Located String}
    (h : t.unit? = (some u, after)) : after.left < t.left := by
  rw [unit?] at h
  split at h
  · cases h
  · next hmoved =>
    obtain rfl := (Prod.mk.inj h).2
    exact Nat.lt_of_lt_of_le (left_skip_lt hmoved) (left_skip_le isBlank t)

/-- Collects units up to a closing quote. A quotation left open is illegal from its
opening quote on. -/
def quotation (content : String) (t : Tape) : Token × Tape :=
  match _h : t.unit? with
  | (none, after) => (.illegal ("📋" ++ content), after)
  | (some u, after) =>
    if isQuote u.value.toList then (.text content, after)
    else after.quotation (content ++ u.value)
termination_by t.left
decreasing_by exact left_lt_of_unit? _h

theorem left_quotation_le (content : String) (t : Tape) :
    (t.quotation content).2.left ≤ t.left := by
  fun_induction quotation content t with
  | case1 content t after h => exact congrArg Prod.snd h ▸ left_unit?_le t
  | case2 content t u after h _ => exact Nat.le_of_lt (left_lt_of_unit? h)
  | case3 content t u after h _ ih => exact Nat.le_trans ih (Nat.le_of_lt (left_lt_of_unit? h))

/-- Reads the next token, which stays `endOfInput` once the text is used up. -/
def next (t : Tape) : Located Token × Tape :=
  match t.unit? with
  | (none, after) => (⟨.endOfInput, after.mark.position⟩, after)
  | (some u, after) =>
    match Word.spelled? u.value.toList with
    | some w =>
      if w.token = .quote then
        let (token, after) := after.quotation ""
        (⟨token, u.position⟩, after)
      else (⟨w.token, u.position⟩, after)
    | none =>
      if Pictograph.isSymbol u.value.toList then (⟨.symbol u.value, u.position⟩, after)
      else (⟨.illegal u.value, u.position⟩, after)

/-- Reads the next token and puts the mark back. -/
def peek (t : Tape) : Located Token × Tape :=
  let saved := t.mark
  let (token, after) := t.next
  (token, { after with mark := saved })

/-- Each token before the end takes at least one byte. -/
theorem left_next_lt {t : Tape} (h : t.next.1.value ≠ .endOfInput) : t.next.2.left < t.left := by
  rw [next] at h ⊢
  cases hunit : t.unit? with
  | mk u? after =>
      cases u? with
      | none => simp [hunit] at h
      | some u =>
          have hlt := left_lt_of_unit? hunit
          have hquotation := left_quotation_le "" after
          dsimp only
          split
          · split
            · exact Nat.lt_of_le_of_lt hquotation hlt
            · exact hlt
          · split <;> exact hlt

end Tape

/-- The tokens of a text before its end, and the position of the end. -/
structure Tokens where
  items : List (Located Token)
  stop : Position
deriving DecidableEq, Repr

def Tokens.toList (ts : Tokens) : List (Located Token) :=
  ts.items ++ [⟨.endOfInput, ts.stop⟩]

/-- All tokens from the mark on, up to the first `endOfInput`. -/
def Tape.tokens (t : Tape) : Tokens :=
  if _h : t.next.1.value = .endOfInput then ⟨[], t.next.1.position⟩
  else
    let ts := t.next.2.tokens
    { ts with items := t.next.1 :: ts.items }
termination_by t.left
decreasing_by exact Tape.left_next_lt _h

def tokenize (source : String) : Tokens := (Tape.ofText source).tokens

end Pictoscript
