import Pictoscript.Proofs.Layout

/-! # Where diagnostics point

An error is shown with an excerpt of the source text: one line of it and, below, a
caret. The excerpt cuts the text into lines on its own and knows nothing of tokens,
while positions are counted by the cursor that cuts tokens. The two treat a carriage
return differently: for the cursor it is a character of the line, for the excerpt it
may belong to the end of the line.

The main statement is that the two fit all the same. Every error is reported at a
token or at the end, the excerpt shows the line that the token begins on, and the
caret stands below the first character of the token. It holds because no token begins
with a blank, and the characters that end a line are blanks.
-/

namespace Pictoscript

namespace Excerpt

/-! ## Lines -/

/-- The lines of a text, counted from one, without their endings. A line ends with a
newline, with a carriage return and a newline, or with the text; nothing behind the
last newline is no line. -/
inductive IsLine : (text : List Char) → (number : Nat) → (line : List Char) → Prop where
  | last {line : List Char} (ne_nil : line ≠ []) (plain : '\n' ∉ line) : IsLine line 1 line
  | newline {line : List Char} (rest : List Char) (plain : '\n' ∉ line)
      (unreturned : line.getLast? ≠ some '\r') : IsLine (line ++ '\n' :: rest) 1 line
  | returned {line : List Char} (rest : List Char) (plain : '\n' ∉ line) :
      IsLine (line ++ '\r' :: '\n' :: rest) 1 line
  | further {above text line : List Char} {number : Nat} (plain : '\n' ∉ above)
      (below : IsLine text number line) : IsLine (above ++ '\n' :: text) (number + 1) line

theorem splitLines_of_not_mem {cs : List Char} (h : '\n' ∉ cs) : splitLines cs = [cs] := by
  induction cs with
  | nil => rfl
  | cons c cs ih =>
      obtain ⟨hc, hcs⟩ := List.ne_and_not_mem_of_not_mem_cons h
      rw [splitLines, if_neg hc.symm, ih hcs]

theorem splitLines_append {cs : List Char} (h : '\n' ∉ cs) (rest : List Char) :
    splitLines (cs ++ '\n' :: rest) = cs :: splitLines rest := by
  induction cs with
  | nil => rfl
  | cons c cs ih =>
      obtain ⟨hc, hcs⟩ := List.ne_and_not_mem_of_not_mem_cons h
      rw [List.cons_append, splitLines, if_neg hc.symm, ih hcs]

theorem splitLines_ne_nil (cs : List Char) : splitLines cs ≠ [] := by
  cases cs with
  | nil => simp [splitLines]
  | cons c cs =>
      rw [splitLines]
      split
      · simp
      · split <;> simp

theorem lines_of_not_mem {cs : List Char} (h : '\n' ∉ cs) :
    lines cs = if cs = [] then [] else [cs] := by
  simp [lines, splitLines_of_not_mem h]

/-- The text up to the first newline is the first line, but for a carriage return. -/
theorem lines_append {cs : List Char} (h : '\n' ∉ cs) (rest : List Char) :
    lines (cs ++ '\n' :: rest) = dropReturn cs :: lines rest := by
  obtain ⟨part, parts, hparts⟩ := List.exists_cons_of_ne_nil (splitLines_ne_nil rest)
  simp [lines, splitLines_append h, hparts]

theorem dropReturn_concat (cs : List Char) : dropReturn (cs ++ ['\r']) = cs := by
  simp [dropReturn]

theorem dropReturn_of_ne {cs : List Char} (h : cs.getLast? ≠ some '\r') : dropReturn cs = cs :=
  if_neg h

/-- The list of lines holds just the lines of the text, in order. -/
theorem getElem?_lines {text line : List Char} {n : Nat} :
    (lines text)[n]? = some line ↔ IsLine text (n + 1) line := by
  constructor
  · intro h
    induction n generalizing text with
    | zero =>
        by_cases hmem : '\n' ∈ text
        · obtain ⟨first, rest, rfl, hfirst⟩ := List.eq_append_cons_of_mem hmem
          rw [lines_append hfirst, List.getElem?_cons_zero] at h
          cases h
          by_cases hreturn : first.getLast? = some '\r'
          · obtain ⟨init, rfl⟩ := List.getLast?_eq_some_iff.mp hreturn
            rw [dropReturn_concat, List.append_assoc]
            exact .returned rest fun hinit => hfirst (List.mem_append_left _ hinit)
          · rw [dropReturn_of_ne hreturn]
            exact .newline rest hfirst hreturn
        · rw [lines_of_not_mem hmem] at h
          by_cases hnil : text = []
          · rw [if_pos hnil] at h
            cases h
          · rw [if_neg hnil] at h
            cases h
            exact .last hnil hmem
    | succ n ih =>
        by_cases hmem : '\n' ∈ text
        · obtain ⟨first, rest, rfl, hfirst⟩ := List.eq_append_cons_of_mem hmem
          rw [lines_append hfirst, List.getElem?_cons_succ] at h
          exact .further hfirst (ih h)
        · rw [lines_of_not_mem hmem] at h
          split at h <;> simp at h
  · intro h
    generalize hnumber : n + 1 = number at h
    induction h generalizing n with
    | last ne_nil plain =>
        obtain rfl : n = 0 := by omega
        rw [lines_of_not_mem plain, if_neg ne_nil]
        rfl
    | newline rest plain unreturned =>
        obtain rfl : n = 0 := by omega
        rw [lines_append plain, dropReturn_of_ne unreturned]
        rfl
    | @returned line rest plain =>
        obtain rfl : n = 0 := by omega
        have hplain : '\n' ∉ line ++ ['\r'] := by simpa using plain
        rw [show line ++ '\r' :: '\n' :: rest = line ++ ['\r'] ++ '\n' :: rest by simp,
          lines_append hplain, dropReturn_concat]
        rfl
    | further plain below ih =>
        obtain ⟨m, rfl⟩ : ∃ m, n = m + 1 := by
          refine ⟨n - 1, ?_⟩
          cases below <;> omega
        rw [lines_append plain, List.getElem?_cons_succ]
        exact ih (by omega)

/-! ## Places on a line -/

/-- The characters behind the last newline: what stands on a line before a place. -/
def lead (before : List Char) : List Char := (before.reverse.takeWhile (· != '\n')).reverse

theorem lead_of_not_mem {before : List Char} (h : '\n' ∉ before) : lead before = before := by
  have hall : ∀ c ∈ before.reverse, (c != '\n') = true := by
    intro c hc
    have hne : c ≠ '\n' := by
      rintro rfl
      exact h (List.mem_reverse.mp hc)
    simpa using hne
  rw [lead, List.takeWhile_eq_self_iff.mpr hall, List.reverse_reverse]

theorem lead_append (above before : List Char) : lead (above ++ '\n' :: before) = lead before := by
  have hstop : ∀ c ∈ ('\n' :: above.reverse).head?, (c != '\n') = false := by simp
  have hreverse : (above ++ '\n' :: before).reverse =
      before.reverse ++ '\n' :: above.reverse := by simp
  rw [lead, hreverse, (Cursor.takeWhile_dropWhile_append (.inr hstop)).1, lead]

/-- The place behind some characters. -/
theorem position_of_length {text before after : List Char} (h : text = before ++ after) :
    Position.ofOffset text before.length = ⟨before.count '\n' + 1, (lead before).length + 1⟩ := by
  rw [Position.ofOffset, h, List.take_left, lead, List.length_reverse, Nat.add_comm 1,
    Nat.add_comm 1]

theorem dropReturn_append (as : List Char) {bs : List Char} (h : bs ≠ []) :
    dropReturn (as ++ bs) = as ++ dropReturn bs := by
  rw [dropReturn, dropReturn, List.getLast?_append_of_ne_nil _ h]
  split
  · rw [List.dropLast_append_of_ne_nil h]
  · rfl

theorem head?_dropReturn {cs : List Char} (h : cs.head? ≠ some '\r') :
    (dropReturn cs).head? = cs.head? := by
  rw [dropReturn]
  split
  · next hreturn =>
    match cs, h, hreturn with
    | [c], h, hreturn => exact absurd hreturn h
    | c :: d :: cs, _, _ => rfl
  · rfl

/-- Going down to a place line by line. -/
theorem line_induction {motive : List Char → Prop}
    (first : ∀ before, '\n' ∉ before → motive before)
    (further : ∀ above before, '\n' ∉ above → motive before → motive (above ++ '\n' :: before))
    (before : List Char) : motive before := by
  by_cases hmem : '\n' ∈ before
  · obtain ⟨above, rest, hsplit, habove⟩ := List.eq_append_cons_of_mem hmem
    rw [hsplit]
    exact further above rest habove (line_induction first further rest)
  · exact first before hmem
termination_by before.length
decreasing_by
  rw [hsplit, List.length_append, List.length_cons]
  omega

/-- A place where the text ends or no blank stands is on a line, which has what stands
before the place and then the same character. Only the place behind a newline that ends
the text is on no line. -/
theorem place_on_line (before : List Char) {after : List Char}
    (h : ∀ c ∈ after.head?, isBlank c = false) :
    (∃ right, (lines (before ++ after))[before.count '\n']? = some (lead before ++ right) ∧
        right.head? = after.head?) ∨
      (lines (before ++ after))[before.count '\n']? = none ∧ after = [] ∧ lead before = [] ∧
        (before = [] ∨ before.getLast? = some '\n') := by
  induction before using line_induction with
  | further above before habove ih =>
      rw [lead_append, List.append_assoc, List.cons_append, lines_append habove,
        List.count_append, List.count_eq_zero.mpr habove, List.count_cons_self, Nat.zero_add,
        List.getElem?_cons_succ]
      rcases ih with hline | ⟨hnone, hafter, hlead, hlast⟩
      · exact .inl hline
      · refine .inr ⟨hnone, hafter, hlead, .inr ?_⟩
        rcases hlast with rfl | hlast
        · simp
        · rw [List.getLast?_append_of_ne_nil _ (by simp), List.getLast?_cons, hlast]
          rfl
  | first before hbefore =>
      rw [List.count_eq_zero.mpr hbefore, lead_of_not_mem hbefore]
      by_cases hafter : '\n' ∈ after
      · obtain ⟨rest, below, rfl, hrest⟩ := List.eq_append_cons_of_mem hafter
        have hne : rest ≠ [] := by
          rintro rfl
          exact absurd (h '\n' rfl) (by decide)
        have hhead : (rest ++ '\n' :: below).head? = rest.head? :=
          List.head?_append_of_ne_nil rest hne
        have hreturn : rest.head? ≠ some '\r' := by
          intro hreturn
          exact absurd (h '\r' (hhead.trans hreturn)) (by decide)
        have hplain : '\n' ∉ before ++ rest := by
          rw [List.mem_append]
          exact not_or_intro hbefore hrest
        refine .inl ⟨dropReturn rest, ?_, (head?_dropReturn hreturn).trans hhead.symm⟩
        rw [← List.append_assoc, lines_append hplain, dropReturn_append before hne]
        rfl
      · have hplain : '\n' ∉ before ++ after := by
          rw [List.mem_append]
          exact not_or_intro hbefore hafter
        rw [lines_of_not_mem hplain]
        by_cases hnil : before ++ after = []
        · obtain ⟨rfl, rfl⟩ := List.append_eq_nil_iff.mp hnil
          exact .inr ⟨rfl, rfl, rfl, .inl rfl⟩
        · rw [if_neg hnil]
          exact .inl ⟨after, rfl, rfl⟩

end Excerpt

/-! ## Places of tokens -/

namespace Token

/-- How a token begins: with the run that spells it, or with the quote that opens it. -/
inductive BeginsWith : (run : List Char) → Token → Prop where
  | spelled {run : List Char} (plain : isQuote run = false) : BeginsWith run (.ofRun run)
  | closed {run : List Char} (quote : isQuote run = true) (content : String) :
      BeginsWith run (.text content)
  | unclosed {run : List Char} (quote : isQuote run = true) (content : String) :
      BeginsWith run (.illegal ("📋" ++ content))

/-- The token is cut from the text at an offset, where the run stands that it begins
with. The end is cut from behind all characters. -/
inductive CutFrom (text : List Char) (offset : Nat) : Token → Prop where
  | run {run : List Char} {t : Token} (stands : (offset, run) ∈ runs text)
      (begins : BeginsWith run t) : CutFrom text offset t
  | finish (behind : offset = text.length) : CutFrom text offset .endOfInput

end Token

theorem exists_run_of_mem_scanRuns (us : List (Located (List Char))) :
    ∀ t ∈ scanRuns us, ∃ run ∈ us, t.position = run.position ∧ t.value.BeginsWith run.value := by
  fun_induction scanRuns us with
  | case1 => simp
  | case2 run rest hquote content hopen =>
      intro t ht
      obtain rfl := List.mem_singleton.mp ht
      exact ⟨run, List.mem_cons_self .., rfl, .unclosed hquote _⟩
  | case3 run rest hquote content close behind hclose ih =>
      intro t ht
      rcases List.mem_cons.mp ht with rfl | ht
      · exact ⟨run, List.mem_cons_self .., rfl, .closed hquote _⟩
      · obtain ⟨run', hrun', hbegins⟩ := ih t ht
        have hsuffix : close :: behind <:+ rest := hclose ▸ List.dropWhile_suffix isContent
        have hmem : run' ∈ rest := hsuffix.subset (List.mem_cons_of_mem close hrun')
        exact ⟨run', List.mem_cons_of_mem run hmem, hbegins⟩
  | case4 run rest hquote ih =>
      intro t ht
      rcases List.mem_cons.mp ht with rfl | ht
      · exact ⟨run, List.mem_cons_self .., rfl, .spelled (Bool.eq_false_of_not_eq_true hquote)⟩
      · obtain ⟨run', hrun', hbegins⟩ := ih t ht
        exact ⟨run', List.mem_cons_of_mem run hrun', hbegins⟩

/-- A token begins somewhere in the text, with a character that is no blank, and stands
where the characters before it lead. -/
theorem exists_place_of_mem_tokenize {source : String} {t : Located Token}
    (h : t ∈ (tokenize source).toList) :
    ∃ before after, source.toList = before ++ after ∧
      t.value.CutFrom source.toList before.length ∧
      t.position = ⟨before.count '\n' + 1, (Excerpt.lead before).length + 1⟩ ∧
      (∀ c ∈ after.head?, isBlank c = false) ∧ (after = [] → t.value = .endOfInput) := by
  rw [Tokens.toList, items_tokenize, stop_tokenize] at h
  rcases List.mem_append.mp h with h | h
  · obtain ⟨located, hlocated, hposition, hbegins⟩ := exists_run_of_mem_scanRuns _ t h
    obtain ⟨⟨offset, run⟩, hrun, rfl⟩ := List.mem_map.mp hlocated
    obtain ⟨hunit, behind, hbehind⟩ :=
      Cursor.isPrefix_of_mem_runsFrom (Cursor.stands_ofText source) _ hrun
    dsimp only at hposition hbegins hunit hbehind
    obtain ⟨c, cs, rfl⟩ := List.exists_cons_of_ne_nil hunit.ne_nil
    have hlength : (source.toList.take offset).length = offset := by
      have hlt : offset < source.toList.length := by
        apply Nat.lt_of_not_le
        intro hle
        rw [List.drop_eq_nil_of_le hle] at hbehind
        cases hbehind
      rw [List.length_take, Nat.min_eq_left hlt.le]
    have hsplit : source.toList = source.toList.take offset ++ (c :: cs ++ behind) := by
      rw [hbehind, List.take_append_drop]
    refine ⟨source.toList.take offset, c :: cs ++ behind, hsplit, ?_, ?_, ?_, ?_⟩
    · rw [hlength]
      exact .run hrun hbegins
    · rw [hposition, ← Excerpt.position_of_length hsplit, hlength]
    · simpa using hunit.not_blank c (by simp)
    · simp
  · obtain rfl := List.mem_singleton.mp h
    have hsplit : source.toList = source.toList ++ [] := (List.append_nil _).symm
    refine ⟨source.toList, [], hsplit, .finish rfl, Excerpt.position_of_length hsplit, ?_, ?_⟩
    · simp
    · simp

/-! ## Reports -/

/-- The report of an error without the excerpt. -/
def CompileError.headline : CompileError → String
  | .parse e => s!"{e.display} ({e.kind.label})"
  | .generate e => e.display

theorem CompileError.format_of_position {e : CompileError} {p : Position}
    (h : e.position? = some p) (source : String) :
    e.format source = e.headline ++ "\n" ++ Excerpt.pointAt source p := by
  cases e with
  | parse e =>
      cases h
      have hend : ")\n" = ")" ++ "\n" := rfl
      simp only [format, headline, toString, hend, String.append_assoc]
  | generate e =>
      have hposition : e.position? = some p := h
      rw [format, hposition]
      rfl

/-- What the report of an error says about a token that begins between `before` and
`after`: it shows `line`, and below it a caret under the beginning of the token. -/
structure CompileError.PointsTo (e : CompileError) (source : String) (t : Located Token)
    (before after line : List Char) : Prop where
  split : source.toList = before ++ after
  cut : t.value.CutFrom source.toList before.length
  position : t.position = ⟨before.count '\n' + 1, (Excerpt.lead before).length + 1⟩
  /-- One blank for each character before the token on its line. -/
  report : e.format source = e.headline ++ "\n" ++ String.ofList line ++ "\n" ++
    String.ofList (List.replicate (Excerpt.lead before).length ' ') ++ "^"
  /-- The caret stands under the character that the token begins with. -/
  under : ∃ right, line = Excerpt.lead before ++ right ∧ right.head? = after.head?
  within : t.position.column ≤ line.length + 1
  /-- Only the end behind a final newline is on no line. -/
  shown : Excerpt.IsLine source.toList t.position.line line ∨
    line = [] ∧ (∀ other, ¬Excerpt.IsLine source.toList t.position.line other) ∧
      t.value = .endOfInput ∧ source.toList.getLast? = some '\n'

theorem compile_empty (sink : Sink) : compile sink "" = .ok "" := by
  cases sink <;> decide +kernel

/-- **Diagnostics point at tokens.** Every error is reported at a token of the source
text or at its end. The report shows the line that the token begins on, without its
ending, and a caret below the first character of the token. -/
theorem CompileError.format_points_to_token {sink : Sink} {source : String} {e : CompileError}
    (h : compile sink source = .error e) :
    ∃ t ∈ (tokenize source).toList, e.position? = some t.position ∧
      ∃ before after line, e.PointsTo source t before after line := by
  obtain ⟨t, ht, hposition⟩ := exists_token_of_compile h
  obtain ⟨before, after, hsplit, hcut, hplace, hblank, hend⟩ := exists_place_of_mem_tokenize ht
  have hreport := format_of_position hposition source
  rw [hplace, Excerpt.pointAt, hsplit, Nat.add_sub_cancel, Nat.add_sub_cancel] at hreport
  refine ⟨t, ht, hposition, before, after, ?_⟩
  rcases Excerpt.place_on_line before hblank with
    ⟨right, hline, hhead⟩ | ⟨hnone, rfl, hlead, hlast⟩
  · refine ⟨Excerpt.lead before ++ right, hsplit, hcut, hplace, ?_, ⟨right, rfl, hhead⟩, ?_,
      .inl ?_⟩
    · rw [hreport, hline, Option.getD_some]
      simp only [String.append_assoc]
    · rw [hplace, List.length_append]
      show (Excerpt.lead before).length + 1 ≤ _
      omega
    · rw [hplace, hsplit]
      exact Excerpt.getElem?_lines.mp hline
  · refine ⟨[], hsplit, hcut, hplace, ?_, ⟨[], by rw [hlead]; rfl, rfl⟩, ?_, .inr ⟨rfl, ?_, ?_, ?_⟩⟩
    · rw [hreport, hnone, Option.getD_none]
      simp only [String.append_assoc]
    · rw [hplace, hlead]
    · intro other hother
      rw [hplace, hsplit] at hother
      rw [Excerpt.getElem?_lines.mpr hother] at hnone
      cases hnone
    · exact hend rfl
    · rw [hsplit, List.append_nil]
      refine hlast.resolve_left fun hempty => ?_
      have hsource : source = "" := by
        apply String.toList_injective
        rw [hsplit, hempty]
        rfl
      rw [hsource, compile_empty] at h
      cases h

/-- A call of a name that is not bound, on a line with a tabulator in front and a
carriage return behind. -/
theorem CompileError.format_points_to_call :
    ∃ e, compile .plain "📢 ✅\r\n\t🍉 🫑 🍴\r\n📢 ❌" = .error e ∧ e.position? = some ⟨2, 2⟩ ∧
      ∃ line, Excerpt.IsLine "📢 ✅\r\n\t🍉 🫑 🍴\r\n📢 ❌".toList 2 line ∧
        e.format "📢 ✅\r\n\t🍉 🫑 🍴\r\n📢 ❌" =
          e.headline ++ "\n" ++ String.ofList line ++ "\n" ++ " " ++ "^" := by
  have hcompile : compile .plain "📢 ✅\r\n\t🍉 🫑 🍴\r\n📢 ❌" =
      .error (.generate (.unresolvedReference "🍉" ⟨2, 2⟩)) := by decide +kernel
  have hlast : "📢 ✅\r\n\t🍉 🫑 🍴\r\n📢 ❌".toList.getLast? = some '❌' := by decide +kernel
  refine ⟨_, hcompile, rfl, ?_⟩
  obtain ⟨t, -, hposition, before, after, line, hpoints⟩ := format_points_to_token hcompile
  have hplace : t.position = ⟨2, 2⟩ := (Option.some.inj hposition).symm
  have hlead : (Excerpt.lead before).length = 1 := by
    have hcolumn := congrArg Position.column hpoints.position
    rw [hplace] at hcolumn
    exact (Nat.succ.inj hcolumn).symm
  refine ⟨line, ?_, ?_⟩
  · rcases hpoints.shown with hline | ⟨-, -, -, hnewline⟩
    · rwa [hplace] at hline
    · rw [hlast] at hnewline
      exact absurd hnewline (by decide)
  · rw [hpoints.report, hlead]
    rfl

end Pictoscript
