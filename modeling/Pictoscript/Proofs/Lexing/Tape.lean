import Pictoscript.Proofs.Lexing.Cursor

/-! # Tapes and cursors

The offset of a tape is the number of bytes that were read. So a character begins at it,
every slice that is taken succeeds, and the text behind the mark is that of a cursor. A
tape and a cursor that stand at the same place still do so after each has read a run of
characters, a unit or a token, and what they have read is the same.
-/

namespace Pictoscript

/-! ## Slices -/

theorem pos?_of_splits {source before behind : String} {p : source.Pos}
    (h : p.Splits before behind) : source.pos? before.rawEndPos = some p := by
  rw [← h.offset_eq_rawEndPos, String.pos?, String.Slice.pos?, dif_pos]
  · rfl
  · exact String.Pos.Raw.isValidForSlice_eq_true_iff.mpr p.toSlice.isValidForSlice

theorem slice?_eq {source before middle behind : String}
    (h : source = before ++ middle ++ behind) :
    slice? source before.rawEndPos (before ++ middle).rawEndPos = some middle := by
  have hfirst := String.Pos.splits_ofEqAppend (h.trans (String.append_assoc ..))
  have hlast := String.Pos.splits_ofEqAppend h
  obtain ⟨hle, hslice⟩ := String.copy_slice_eq_iff_splits.mpr ⟨before, behind, hfirst, hlast⟩
  rw [slice?, pos?_of_splits hfirst, pos?_of_splits hlast]
  simp [String.slice?, hle, hslice]

namespace Tape

/-! ## Only the mark moves -/

theorem source_bump (t : Tape) : t.bump.source = t.source := by
  rw [bump]
  split <;> rfl

theorem source_skip (p : Char → Bool) (t : Tape) : (t.skip p).source = t.source := by
  fun_induction skip p t with
  | case1 t h ih => exact ih.trans (source_bump t)
  | case2 t h => rfl

theorem source_unit? (t : Tape) : t.unit?.2.source = t.source := by
  have hsource : ((t.skip isBlank).skip fun c => !isBlank c).source = t.source := by
    rw [source_skip, source_skip]
  rw [unit?]
  split <;> exact hsource

theorem source_quotation (content : String) (t : Tape) :
    (t.quotation content).2.source = t.source := by
  fun_induction quotation content t with
  | case1 content t after h => exact congrArg (·.2.source) h ▸ source_unit? t
  | case2 content t u after h _ => exact congrArg (·.2.source) h ▸ source_unit? t
  | case3 content t u after h _ ih => exact ih.trans (congrArg (·.2.source) h ▸ source_unit? t)

theorem source_next (t : Tape) : t.next.2.source = t.source := by
  have hunit := source_unit? t
  rw [next]
  cases h : t.unit? with
  | mk u? after =>
      rw [h] at hunit
      cases u? with
      | none => exact hunit
      | some u =>
          dsimp only
          split
          · split
            · exact (source_quotation "" after).trans hunit
            · exact hunit
          · split <;> exact hunit

/-- Looking at a token leaves the tape as it was. -/
theorem peek_eq (t : Tape) : t.peek = (t.next.1, t) := by
  have hsource := source_next t
  rw [peek]
  obtain ⟨source, mark⟩ := t
  simp [hsource]

/-! ## Characters -/

/-- The tape has read the first part of its text, and the cursor stands behind it. -/
structure Stands (t : Tape) (read : String) (k : Cursor) : Prop where
  source : t.source = read ++ String.ofList k.rest
  offset : t.mark.offset = read.rawEndPos
  position : t.mark.position = k.position
  counted : k.position = read.toList.foldl Position.advance .start

variable {t : Tape} {k : Cursor} {read : String}

theorem stands_ofText (source : String) : (ofText source).Stands "" (.ofText source) where
  source := by simp [ofText, Cursor.ofText]
  offset := rfl
  position := rfl
  counted := rfl

namespace Stands

theorem copy_rest (h : t.Stands read k) : t.rest.copy = String.ofList k.rest := by
  have hsplits := String.Pos.splits_ofEqAppend h.source
  rw [rest, h.offset, pos?_of_splits hsplits]
  exact hsplits.copy_sliceFrom_eq

theorem current? (h : t.Stands read k) : t.current? = k.rest.head? := by
  rw [Tape.current?, String.Slice.front?_eq, h.copy_rest, String.toList_ofList]

theorem atEnd (h : t.Stands read k) : t.atEnd = k.atEnd := by
  rw [Tape.atEnd, h.copy_rest, String.toList_ofList]
  rfl

theorem bump {c : Char} {cs : List Char} {p : Position} (h : t.Stands read ⟨c :: cs, p⟩) :
    t.bump.Stands (read.push c) ⟨cs, p.advance c⟩ := by
  have hcurrent : t.current? = some c := h.current?
  rw [Tape.bump, hcurrent]
  constructor
  · rw [h.source, ← String.toList_inj]
    simp
  · show t.mark.offset + c = _
    rw [h.offset, String.rawEndPos_push]
  · exact congrArg (Position.advance · c) h.position
  · rw [String.toList_push, List.foldl_append, ← h.counted]
    rfl

theorem skip (p : Char → Bool) (h : t.Stands read k) :
    (t.skip p).Stands (read ++ String.ofList (k.rest.takeWhile p)) (k.skip p) := by
  obtain ⟨cs, q⟩ := k
  induction cs generalizing t q read with
  | nil =>
      have hcurrent : t.current? = none := h.current?
      rw [Tape.skip, hcurrent, dif_neg (by simp)]
      simpa [Cursor.skip] using h
  | cons c cs ih =>
      have hcurrent : t.current? = some c := h.current?
      rw [Tape.skip, hcurrent]
      by_cases hc : p c = true
      · rw [dif_pos (by simpa using hc)]
        have hrest := ih (q.advance c) h.bump
        have hread : read.push c ++ String.ofList (cs.takeWhile p) =
            read ++ String.ofList ((c :: cs).takeWhile p) := by
          rw [← String.toList_inj]
          simp [hc]
        rw [hread] at hrest
        simpa [Cursor.skip, hc] using hrest
      · rw [dif_neg (by simpa using hc)]
        simpa [Cursor.skip, hc] using h

end Stands

/-! ## Quotations -/

theorem quotation_of_none {last : Tape} (h : t.unit? = (none, last)) (content : String) :
    t.quotation content = (.illegal ("📋" ++ content), last) := by
  rw [quotation]
  split
  · next heq =>
    rw [h] at heq
    cases heq
    rfl
  · next heq =>
    rw [h] at heq
    cases heq

theorem quotation_of_some {u : Located String} {last : Tape} (h : t.unit? = (some u, last))
    (content : String) :
    t.quotation content = if isQuote u.value.toList then (.text content, last)
      else last.quotation (content ++ u.value) := by
  rw [quotation]
  split
  · next heq =>
    rw [h] at heq
    cases heq
  · next heq =>
    rw [h] at heq
    cases heq
    rfl

/-! ## Units and tokens -/

def Follows (t : Tape) (k : Cursor) : Prop := ∃ read, t.Stands read k

namespace Follows

theorem unit?_of_none (h : t.Follows k) (hnone : k.unit? = none) :
    ∃ last, t.unit? = (none, last) ∧ last.Follows k.skipBlanks := by
  obtain ⟨read, h⟩ := h
  have hfirst := h.skip isBlank
  have hlast := hfirst.skip fun c => !isBlank c
  have htake : k.skipBlanks.rest.takeWhile (fun c => !isBlank c) = [] := by
    rw [Cursor.unit?] at hnone
    split at hnone
    · next htake => exact htake
    · cases hnone
  have hstill : k.skipBlanks.skip (fun c => !isBlank c) = k.skipBlanks := by
    have hsplit : k.skipBlanks.rest.takeWhile (fun c => !isBlank c) ++
        k.skipBlanks.rest.dropWhile (fun c => !isBlank c) = k.skipBlanks.rest :=
      List.takeWhile_append_dropWhile
    rw [htake, List.nil_append] at hsplit
    rw [Cursor.skip, htake, hsplit]
    rfl
  rw [← Cursor.skipBlanks] at hlast
  rw [htake, String.ofList_nil, String.append_empty, hstill] at hlast
  rw [unit?, if_pos (hlast.offset.trans hfirst.offset.symm)]
  exact ⟨_, rfl, _, hlast⟩

theorem unit?_of_some {u : Located (List Char)} {after : Cursor} (h : t.Follows k)
    (hsome : k.unit? = some (u, after)) :
    ∃ last, t.unit? = (some ⟨String.ofList u.value, u.position⟩, last) ∧ last.Follows after := by
  obtain ⟨read, h⟩ := h
  have hfirst := h.skip isBlank
  have hlast := hfirst.skip fun c => !isBlank c
  rw [← Cursor.skipBlanks] at hlast
  rw [Cursor.unit?] at hsome
  split at hsome
  · cases hsome
  · next c cs htake =>
    cases hsome
    have hsource := hlast.source
    rw [source_skip, source_skip, htake] at hsource
    rw [htake] at hlast
    have hmoved : ((t.skip isBlank).skip fun c => !isBlank c).mark.offset ≠
        (t.skip isBlank).mark.offset := by
      have hpos := c.utf8Size_pos
      intro hsame
      rw [hlast.offset, hfirst.offset, String.Pos.Raw.ext_iff] at hsame
      simp [String.utf8ByteSize_append, String.ofList_cons] at hsame
      omega
    rw [unit?, if_neg hmoved, hlast.offset, hfirst.offset, slice?_eq hsource, hfirst.position]
    exact ⟨_, rfl, _, hlast⟩

theorem quotation {k : Cursor} : ∀ {t : Tape}, t.Follows k → ∀ content : String,
    ∃ last, t.quotation content = (if k.quotation.closed then
        .text (content ++ String.ofList k.quotation.content)
        else .illegal ("📋" ++ (content ++ String.ofList k.quotation.content)), last) ∧
      last.Follows k.quotation.after := by
  fun_induction Cursor.quotation k with
  | case1 k hnone =>
      intro t h content
      obtain ⟨last, hunit, hfollows⟩ := h.unit?_of_none hnone
      refine ⟨last, ?_, hfollows⟩
      rw [quotation_of_none hunit]
      simp
  | case2 k u after hsome hquote =>
      intro t h content
      obtain ⟨last, hunit, hfollows⟩ := h.unit?_of_some hsome
      refine ⟨last, ?_, hfollows⟩
      rw [quotation_of_some hunit, if_pos (by simpa using hquote)]
      simp
  | case3 k u after hsome hquote q =>
      rename_i ih
      intro t h content
      obtain ⟨last, hunit, hfollows⟩ := h.unit?_of_some hsome
      obtain ⟨last', hrest, hfollows'⟩ := ih hfollows (content ++ String.ofList u.value)
      refine ⟨last', ?_, hfollows'⟩
      rw [quotation_of_some hunit, if_neg (by simpa using hquote), hrest]
      simp only [String.ofList_append, String.append_assoc]
      rfl

theorem next_of_none (h : t.Follows k) (hnone : k.next? = none) :
    ∃ last, t.next = (⟨.endOfInput, k.skipBlanks.position⟩, last) ∧
      last.Follows k.skipBlanks := by
  rw [Cursor.next?] at hnone
  split at hnone
  · next hunit =>
    obtain ⟨last, htape, hfollows⟩ := h.unit?_of_none hunit
    have hposition : last.mark.position = k.skipBlanks.position := by
      obtain ⟨read, hstands⟩ := hfollows
      exact hstands.position
    rw [Tape.next, htape, ← hposition]
    exact ⟨last, rfl, hfollows⟩
  · split at hnone <;> split at hnone <;> cases hnone

theorem next_of_some {token : Located Token} {after : Cursor} (h : t.Follows k)
    (hsome : k.next? = some (token, after)) :
    ∃ last, t.next = (token, last) ∧ last.Follows after := by
  rw [Cursor.next?] at hsome
  split at hsome
  · cases hsome
  · next u after' hunit =>
    obtain ⟨last, htape, hfollows⟩ := h.unit?_of_some hunit
    rw [Tape.next, htape]
    cases hw : Word.spelled? u.value with
    | none =>
        simp only [hw, String.toList_ofList] at hsome ⊢
        by_cases hsymbol : Pictograph.isSymbol u.value = true
        · rw [if_pos hsymbol] at hsome ⊢
          cases hsome
          exact ⟨last, rfl, hfollows⟩
        · rw [if_neg hsymbol] at hsome ⊢
          cases hsome
          exact ⟨last, rfl, hfollows⟩
    | some w =>
        simp only [hw, String.toList_ofList] at hsome ⊢
        by_cases hquote : w.token = .quote
        · rw [if_pos hquote] at hsome ⊢
          cases hsome
          obtain ⟨last', hquotation, hfollows'⟩ := hfollows.quotation ""
          rw [hquotation, String.empty_append]
          exact ⟨last', rfl, hfollows'⟩
        · rw [if_neg hquote] at hsome ⊢
          cases hsome
          exact ⟨last, rfl, hfollows⟩

theorem next (h : t.Follows k) : ∃ last, t.next = (k.next.1, last) ∧ last.Follows k.next.2 := by
  cases hnext : k.next? with
  | none =>
      rw [Cursor.next, hnext]
      exact h.next_of_none hnext
  | some found =>
      rw [Cursor.next, hnext]
      exact h.next_of_some hnext

end Follows

end Tape

end Pictoscript
