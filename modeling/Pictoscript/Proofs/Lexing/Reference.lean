import Mathlib.Data.List.Induction
import Pictoscript.Proofs.Lexing.Concatenation

/-! # What a text means as tokens

A plain account of the tokens of a text, which knows no cursor and looks at the
text as a whole:

- The text is split at blanks. The parts that are not empty are its *runs*, and
  each run begins at an offset, the number of characters before it.
- The position of an offset follows from the characters before it: the newlines
  among them give the line, and those behind the last newline the column.
- A run that spells the quote opens a quotation, which ends at the next such run.
  Every other run outside a quotation is one token.

Pulling tokens from a cursor gives just these tokens at just these positions. The
cursor passes over the text piece by piece and moves its position along; the proof
follows it with the offset it has reached.
-/

namespace Pictoscript

/-! ## Positions of offsets -/

def Position.ofOffset (text : List Char) (offset : Nat) : Position :=
  let before := text.take offset
  ⟨1 + before.count '\n', 1 + (before.reverse.takeWhile (· != '\n')).length⟩

/-- Moving through characters one by one comes to the position that counting them
gives. -/
theorem Position.foldl_advance_start (cs : List Char) :
    cs.foldl advance start =
      ⟨1 + cs.count '\n', 1 + (cs.reverse.takeWhile (· != '\n')).length⟩ := by
  induction cs using List.reverseRecOn with
  | nil => rfl
  | append_singleton cs c ih =>
      rw [List.foldl_append, List.foldl_cons, List.foldl_nil, ih, List.reverse_append]
      by_cases hc : c = '\n'
      · subst hc
        simp [Nat.add_assoc]
      · rw [advance_of_ne hc]
        simp [hc]
        omega

theorem Position.foldl_advance_take (text : List Char) (offset : Nat) :
    (text.take offset).foldl advance start = ofOffset text offset :=
  foldl_advance_start (text.take offset)

/-! ## Runs -/

/-- The parts of a text that is split at single characters, each with the offset
where it begins. -/
def placed (offset : Nat) : List (List Char) → List (Nat × List Char)
  | [] => []
  | part :: parts => (offset, part) :: placed (offset + part.length + 1) parts

def runsFrom (offset : Nat) (text : List Char) : List (Nat × List Char) :=
  (placed offset (text.splitOnP isBlank)).filter fun run => !run.2.isEmpty

/-- The maximal runs of characters that are not blank, and where they begin. -/
def runs (text : List Char) : List (Nat × List Char) := runsFrom 0 text

def locatedRuns (text : List Char) : List (Located (List Char)) :=
  (runs text).map fun run => ⟨run.2, .ofOffset text run.1⟩

theorem map_snd_placed (parts : List (List Char)) (offset : Nat) :
    (placed offset parts).map Prod.snd = parts := by
  induction parts generalizing offset with
  | nil => rfl
  | cons part parts ih => rw [placed, List.map_cons, ih]

/-- Without their offsets the runs are the units. -/
theorem map_snd_runsFrom (offset : Nat) (text : List Char) :
    (runsFrom offset text).map Prod.snd = units text := by
  unfold runsFrom units
  rw [← map_snd_placed (text.splitOnP isBlank) offset, List.filter_map, map_snd_placed]
  rfl

theorem runsFrom_nil (offset : Nat) : runsFrom offset [] = [] := rfl

theorem runsFrom_blank {c : Char} (hc : isBlank c = true) (offset : Nat) (cs : List Char) :
    runsFrom offset (c :: cs) = runsFrom (offset + 1) cs := by
  unfold runsFrom
  rw [List.splitOnP_cons_eq_if_modifyHead, if_pos hc]
  rfl

theorem runsFrom_blanks {bs : List Char} (h : ∀ c ∈ bs, isBlank c = true) (offset : Nat)
    (cs : List Char) : runsFrom offset (bs ++ cs) = runsFrom (offset + bs.length) cs := by
  induction bs generalizing offset with
  | nil => rfl
  | cons b bs ih =>
      obtain ⟨hb, hbs⟩ := List.forall_mem_cons.mp h
      rw [List.cons_append, runsFrom_blank hb, ih hbs, List.length_cons]
      congr 1
      omega

/-- A unit in front of a blank or of the end is a run. -/
theorem runsFrom_isUnit {u cs : List Char} (hu : IsUnit u)
    (hcs : ∀ c ∈ cs.head?, isBlank c = true) (offset : Nat) :
    runsFrom offset (u ++ cs) = (offset, u) :: runsFrom (offset + u.length) cs := by
  have hsingle : u.splitOnP isBlank = [u] := List.splitOnP_eq_singleton hu.not_blank
  have hne : u.isEmpty = false := by simpa using hu.ne_nil
  cases cs with
  | nil =>
      rw [List.append_nil, runsFrom_nil]
      unfold runsFrom
      rw [hsingle]
      simp [placed, hne]
  | cons c cs =>
      have hc : isBlank c = true := hcs c rfl
      rw [runsFrom_blank hc]
      unfold runsFrom
      rw [List.splitOnP_append_cons u cs hc, hsingle]
      simp [placed, hne]

/-! ## Scanning runs -/

/-- The token of a run outside a quotation. -/
def Token.ofRun (run : List Char) : Token :=
  match Word.spelled? run with
  | some w => w.token
  | none =>
    if Pictograph.isSymbol run then .symbol (String.ofList run)
    else .illegal (String.ofList run)

/-- Would a quotation go on over the run? -/
def isContent (run : Located (List Char)) : Bool := !isQuote run.value

/-- The tokens of runs. A quotation takes the runs up to the next quote and stands
where its opening quote stands; it is illegal if no quote follows. -/
def scanRuns : List (Located (List Char)) → List (Located Token)
  | [] => []
  | run :: rest =>
    if isQuote run.value then
      let content := (rest.takeWhile isContent).flatMap Located.value
      match _h : rest.dropWhile isContent with
      | [] => [⟨.illegal ("📋" ++ String.ofList content), run.position⟩]
      | _ :: behind => ⟨.text (String.ofList content), run.position⟩ :: scanRuns behind
    else ⟨.ofRun run.value, run.position⟩ :: scanRuns rest
termination_by runs => runs.length
decreasing_by
  · have hle := (List.dropWhile_suffix isContent (l := rest)).length_le
    rw [_h] at hle
    simp only [List.length_cons] at hle ⊢
    omega
  · simp

theorem scanRuns_nil : scanRuns [] = [] := by
  rw [scanRuns]

theorem scanRuns_of_not_isQuote {run : Located (List Char)} (h : isQuote run.value = false)
    (rest : List (Located (List Char))) :
    scanRuns (run :: rest) = ⟨.ofRun run.value, run.position⟩ :: scanRuns rest := by
  rw [scanRuns, if_neg (by simp [h])]

theorem scanRuns_of_closed {run close : Located (List Char)}
    (h : isQuote run.value = true) {rest behind : List (Located (List Char))}
    (hclose : rest.dropWhile isContent = close :: behind) :
    scanRuns (run :: rest) =
      ⟨.text (String.ofList ((rest.takeWhile isContent).flatMap Located.value)), run.position⟩ ::
        scanRuns behind := by
  rw [scanRuns, if_pos h]
  split
  · next hnil => rw [hnil] at hclose; cases hclose
  · next hcons =>
    rw [hcons] at hclose
    cases hclose
    rfl

theorem scanRuns_of_open {run : Located (List Char)} (h : isQuote run.value = true)
    {rest : List (Located (List Char))} (hopen : rest.dropWhile isContent = []) :
    scanRuns (run :: rest) =
      [⟨.illegal ("📋" ++ String.ofList ((rest.takeWhile isContent).flatMap Located.value)),
        run.position⟩] := by
  rw [scanRuns, if_pos h]
  split
  · rfl
  · next hcons => rw [hcons] at hopen; cases hopen

def reference (source : String) : List (Located Token) :=
  scanRuns (locatedRuns source.toList) ++
    [⟨.endOfInput, .ofOffset source.toList source.toList.length⟩]

namespace Cursor

/-! ## The runs that a cursor comes to -/

/-- The units that can still be taken, each where it stands. -/
def upcoming (k : Cursor) : List (Located (List Char)) :=
  match _h : k.unit? with
  | none => []
  | some (u, after) => u :: after.upcoming
termination_by k.rest.length
decreasing_by exact length_lt_of_unit? _h

theorem upcoming_of_unit?_none {k : Cursor} (h : k.unit? = none) : k.upcoming = [] := by
  rw [upcoming]
  split
  · rfl
  · next hsome => rw [h] at hsome; cases hsome

theorem upcoming_of_unit? {k after : Cursor} {u : Located (List Char)}
    (h : k.unit? = some (u, after)) : k.upcoming = u :: after.upcoming := by
  rw [upcoming]
  split
  · next hnone => rw [h] at hnone; cases hnone
  · next hsome =>
    rw [h] at hsome
    cases hsome
    rfl

/-- The content of a quotation is that of the units up to the next quote. -/
theorem content_quotation (k : Cursor) :
    k.quotation.content = (k.upcoming.takeWhile isContent).flatMap Located.value := by
  fun_induction quotation k with
  | case1 k h => rw [upcoming_of_unit?_none h]; rfl
  | case2 k u after h hquote =>
      rw [upcoming_of_unit? h, List.takeWhile_cons_of_neg (by simp [isContent, hquote])]
      rfl
  | case3 k u after h hquote q ih =>
      rw [upcoming_of_unit? h, List.takeWhile_cons_of_pos (by simpa [isContent] using hquote),
        List.flatMap_cons]
      exact congrArg (u.value ++ ·) ih

/-- A quotation is closed if a quote is still to come, and goes on behind it. -/
theorem dropWhile_upcoming (k : Cursor) :
    match k.quotation.closed with
    | true => ∃ close, k.upcoming.dropWhile isContent = close :: k.quotation.after.upcoming
    | false => k.upcoming.dropWhile isContent = [] ∧ k.quotation.after.upcoming = [] := by
  fun_induction quotation k with
  | case1 k h =>
      have hblanks : k.skipBlanks.unit? = none := by
        rw [unit?, skipBlanks, skipBlanks, skip_skip]
        exact h
      exact ⟨by rw [upcoming_of_unit?_none h]; rfl, upcoming_of_unit?_none hblanks⟩
  | case2 k u after h hquote =>
      rw [upcoming_of_unit? h, List.dropWhile_cons_of_neg (by simp [isContent, hquote])]
      exact ⟨u, rfl⟩
  | case3 k u after h hquote q ih =>
      rw [upcoming_of_unit? h, List.dropWhile_cons_of_pos (by simpa [isContent] using hquote)]
      exact ih

theorem scanRuns_of_next? {k after : Cursor} {t : Located Token} (h : k.next? = some (t, after)) :
    scanRuns k.upcoming = t :: scanRuns after.upcoming := by
  rw [next?] at h
  split at h
  · cases h
  · next u after' hu =>
    rw [upcoming_of_unit? hu]
    split at h
    · next w hw =>
      split at h
      · next hquote =>
        cases h
        have hopens : isQuote u.value = true := by
          rw [isQuote_of_spelled? hw, hquote]
          rfl
        have hdrop := dropWhile_upcoming after'
        rw [Quotation.token, content_quotation]
        cases hclosed : after'.quotation.closed with
        | true =>
            rw [hclosed] at hdrop
            obtain ⟨close, hclose⟩ := hdrop
            rw [scanRuns_of_closed hopens hclose]
            rfl
        | false =>
            rw [hclosed] at hdrop
            rw [scanRuns_of_open hopens hdrop.1, hdrop.2, scanRuns_nil]
            rfl
      · next hquote =>
        cases h
        have hplain : isQuote u.value = false := by
          rw [isQuote_of_spelled? hw]
          simpa using hquote
        rw [scanRuns_of_not_isQuote hplain, Token.ofRun, hw]
    · next hw =>
      have hplain : isQuote u.value = false := isQuote_of_spelled?_none hw
      rw [scanRuns_of_not_isQuote hplain, Token.ofRun, hw]
      split at h
      · next hsymbol =>
        cases h
        rw [if_pos hsymbol]
      · next hsymbol =>
        cases h
        rw [if_neg hsymbol]

/-- Pulling tokens one by one is scanning the runs to come. -/
theorem items_tokens_eq_scanRuns (k : Cursor) : k.tokens.items = scanRuns k.upcoming := by
  fun_induction tokens k with
  | case1 k h =>
      rw [upcoming_of_unit?_none (next?_eq_none_iff.mp h), scanRuns_nil]
  | case2 k t after h ts ih =>
      rw [scanRuns_of_next? h, ← ih]

/-! ## Offsets -/

/-- The cursor has come to an offset of the text. -/
structure Stands (text : List Char) (offset : Nat) (k : Cursor) : Prop where
  rest : k.rest = text.drop offset
  position : k.position = .ofOffset text offset

variable {text : List Char} {offset : Nat} {k : Cursor}

theorem stands_ofText (source : String) : Stands source.toList 0 (ofText source) := ⟨rfl, rfl⟩

/-- Passing over some characters moves the offset by as many. -/
theorem Stands.skip (h : Stands text offset k) (p : Char → Bool) :
    Stands text (offset + (k.rest.takeWhile p).length) (k.skip p) := by
  have hsplit : k.rest.takeWhile p ++ k.rest.dropWhile p = text.drop offset := by
    rw [List.takeWhile_append_dropWhile, h.rest]
  constructor
  · show k.rest.dropWhile p = _
    rw [← List.drop_drop, ← hsplit, List.drop_left]
  · show (k.rest.takeWhile p).foldl Position.advance k.position = _
    rw [← Position.foldl_advance_take, List.take_add, ← hsplit, List.take_left, List.foldl_append,
      Position.foldl_advance_take, h.position]

/-- The first run of a text is the next unit, which begins behind the blanks. -/
theorem runsFrom_of_unit? {after : Cursor} {u : Located (List Char)}
    (h : k.unit? = some (u, after)) (offset : Nat) :
    runsFrom offset k.rest =
      (offset + (k.rest.takeWhile isBlank).length, u.value) ::
        runsFrom (offset + (k.rest.takeWhile isBlank).length + u.value.length) after.rest := by
  obtain ⟨hunitary, hsplit, hend⟩ := split_of_unit? h
  have hblank : ∀ c ∈ k.rest.takeWhile isBlank, isBlank c = true :=
    List.all_eq_true.mp List.all_takeWhile
  conv_lhs => rw [hsplit]
  rw [runsFrom_blanks hblank, runsFrom_isUnit hunitary hend]

theorem runsFrom_of_unit?_none (h : k.unit? = none) (offset : Nat) :
    runsFrom offset k.rest = [] := by
  have hblank : ∀ c ∈ k.rest, isBlank c = true :=
    List.dropWhile_eq_nil_iff.mp (rest_skipBlanks_of_unit?_none h)
  rw [← List.append_nil k.rest, runsFrom_blanks hblank, runsFrom_nil]

/-- Behind a unit the cursor has moved by the blanks and the unit. -/
theorem Stands.unit? {after : Cursor} {u : Located (List Char)} (h : Stands text offset k)
    (hunit : k.unit? = some (u, after)) :
    Stands text (offset + (k.rest.takeWhile isBlank).length) k.skipBlanks ∧
      Stands text (offset + (k.rest.takeWhile isBlank).length + u.value.length) after := by
  obtain ⟨hvalue, -, -, hafter⟩ := unit?_eq_some_iff.mp hunit
  have hbegin := h.skip isBlank
  exact ⟨hbegin, hafter ▸ hvalue ▸ hbegin.skip fun c => !isBlank c⟩

/-- The units that a cursor comes to are the runs behind its offset. -/
theorem upcoming_of_stands (h : Stands text offset k) :
    k.upcoming = (runsFrom offset k.rest).map fun run => ⟨run.2, .ofOffset text run.1⟩ := by
  fun_induction upcoming k generalizing offset with
  | case1 k hunit =>
      rw [runsFrom_of_unit?_none hunit]
      rfl
  | case2 k u after hunit ih =>
      obtain ⟨-, -, hposition, -⟩ := unit?_eq_some_iff.mp hunit
      obtain ⟨hbegin, hbehind⟩ := h.unit? hunit
      rw [runsFrom_of_unit? hunit, List.map_cons, ← ih hbehind, ← hbegin.position, ← hposition]

/-- A run is a unit, and the text goes on with it at its offset. -/
theorem isPrefix_of_mem_runsFrom (h : Stands text offset k) :
    ∀ run ∈ runsFrom offset k.rest, IsUnit run.2 ∧ run.2 <+: text.drop run.1 := by
  fun_induction upcoming k generalizing offset with
  | case1 k hunit =>
      rw [runsFrom_of_unit?_none hunit]
      simp
  | case2 k u after hunit ih =>
      obtain ⟨hvalue, -, -, -⟩ := unit?_eq_some_iff.mp hunit
      obtain ⟨hbegin, hbehind⟩ := h.unit? hunit
      rw [runsFrom_of_unit? hunit, List.forall_mem_cons]
      refine ⟨⟨(split_of_unit? hunit).1, ?_⟩, ih hbehind⟩
      rw [hvalue, ← hbegin.rest]
      exact List.takeWhile_prefix _

end Cursor

theorem map_value_locatedRuns (text : List Char) :
    (locatedRuns text).map Located.value = units text := by
  rw [← map_snd_runsFrom 0 text, locatedRuns, List.map_map]
  rfl

theorem items_tokenize (source : String) :
    (tokenize source).items = scanRuns (locatedRuns source.toList) := by
  rw [tokenize_eq, Cursor.items_tokens_eq_scanRuns,
    Cursor.upcoming_of_stands (Cursor.stands_ofText source)]
  rfl

theorem stop_tokenize (source : String) :
    (tokenize source).stop = .ofOffset source.toList source.toList.length := by
  rw [tokenize_eq, Cursor.stop_tokens, ← Position.foldl_advance_take, List.take_length]
  rfl

/-- The position of each token is behind those of the tokens before it. -/
theorem pairwise_toList_tokenize (source : String) :
    (tokenize source).toList.Pairwise fun s t => s.position < t.position := by
  refine List.pairwise_append.mpr ⟨pairwise_tokenize source, List.pairwise_singleton _ _, ?_⟩
  intro s hs t ht
  obtain rfl := List.mem_singleton.mp ht
  exact position_lt_stop_tokenize source s hs

/-- **The tokens of a text are those of the reference.** No quote is among them, the
mark of the end is there once, and each token stands behind those before it. -/
theorem toList_tokenize_eq_reference (source : String) :
    (tokenize source).toList = reference source ∧
      (∀ t ∈ (tokenize source).toList, t.value ≠ .quote) ∧
      (tokenize source).toList.countP (fun t => t.value == .endOfInput) = 1 ∧
      (tokenize source).toList.Pairwise fun s t => s.position < t.position := by
  have hgenuine : ∀ t ∈ (tokenize source).items, t.value.isGenuine = true :=
    genuine_of_mem_tokenize
  refine ⟨?_, ?_, ?_, pairwise_toList_tokenize source⟩
  · rw [Tokens.toList, items_tokenize, stop_tokenize]
    rfl
  · intro t ht hquote
    rcases List.mem_append.mp ht with ht | ht
    · have hvalue := hgenuine t ht
      rw [hquote] at hvalue
      cases hvalue
    · obtain rfl := List.mem_singleton.mp ht
      cases hquote
  · have hnone : (tokenize source).items.countP (fun t => t.value == .endOfInput) = 0 := by
      refine List.countP_eq_zero.mpr fun t ht => ?_
      simpa using tokenize_ne_endOfInput source t ht
    rw [Tokens.toList, List.countP_append, hnone]
    rfl

/-- The second quotation is left open, behind a carriage return that counts as a
character of its line. -/
example : reference "🍉 📋 a b\n📋\r 📋 x" =
    [⟨.symbol "🍉", ⟨1, 1⟩⟩, ⟨.text "ab", ⟨1, 3⟩⟩, ⟨.illegal "📋x", ⟨2, 4⟩⟩,
      ⟨.endOfInput, ⟨2, 7⟩⟩] := by
  decide +kernel

end Pictoscript
