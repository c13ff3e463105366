import Pictoscript.Tree.Outline

/-! # Indentation

An outline shows what belongs to what by indentation only: a line belongs to the
nearest line before it that is less indented. A `Sketch` is what such an outline
shows, a tree with one label for each line.

A sketch is written in two steps. Its labels are listed from top to bottom with
their depths (`Sketch.entries`), and each entry becomes a line (`lines`). Both
steps can be undone: `sketches_of_lines` says that sketches are determined by
their lines, as long as every label fits on a line of its own and can be told
from the other labels.
-/

namespace Pictoscript

namespace Outline

/-- A label, and what stands below it one level deeper. -/
inductive Sketch (α : Type) where
  | item (label : α) (below : List (Sketch α))

variable {α : Type}

mutual
/-- The labels of a sketch from top to bottom, with their depths. -/
def Sketch.entries (depth : Nat) : Sketch α → List (Nat × α)
  | .item label below => (depth, label) :: entriesOf (depth + 1) below
def entriesOf (depth : Nat) : List (Sketch α) → List (Nat × α)
  | [] => []
  | t :: ts => t.entries depth ++ entriesOf depth ts
end

def lines (write : α → String) (entries : List (Nat × α)) : String :=
  String.join (entries.map fun a => line a.1 (write a.2))

/-- A text that is one line, and does not begin where its indentation might end. -/
structure FitsLine (content : String) : Prop where
  newline : '\n' ∉ content.toList
  blank : ∀ c ∈ content.toList.head?, c ≠ ' '

/-- Two lists that each begin with a run of `p` and go on with something else are
equal part by part. -/
theorem append_inj_of_run {p : α → Bool} {xs xs' ys ys' : List α}
    (hxs : ∀ a ∈ xs, p a = true) (hys : ∀ a ∈ ys.head?, p a = false)
    (hxs' : ∀ a ∈ xs', p a = true) (hys' : ∀ a ∈ ys'.head?, p a = false)
    (h : xs ++ ys = xs' ++ ys') : xs = xs' ∧ ys = ys' := by
  have hrun : ∀ {zs ws : List α}, (∀ a ∈ zs, p a = true) → (∀ a ∈ ws.head?, p a = false) →
      (zs ++ ws).takeWhile p = zs := by
    intro zs ws hzs hws
    rw [List.takeWhile_append_of_pos hzs]
    cases ws with
    | nil => simp
    | cons w ws => simp [hws w rfl]
  have hsame : xs = xs' := by rw [← hrun hxs hys, h, hrun hxs' hys']
  subst hsame
  exact ⟨rfl, List.append_cancel_left h⟩

section

variable {P : α → Prop} {d : Nat} {ts : List (Sketch α)}

theorem forall_entries_item {label : α} :
    (∀ a ∈ (Sketch.item label ts).entries d, P a.2) ↔
      P label ∧ ∀ a ∈ entriesOf (d + 1) ts, P a.2 := by
  rw [Sketch.entries, List.forall_mem_cons]

theorem forall_entriesOf_nil : ∀ a ∈ entriesOf d ([] : List (Sketch α)), P a.2 := by
  rintro a ⟨⟩

theorem forall_entriesOf_cons {t : Sketch α} :
    (∀ a ∈ entriesOf d (t :: ts), P a.2) ↔
      (∀ a ∈ t.entries d, P a.2) ∧ ∀ a ∈ entriesOf d ts, P a.2 := by
  rw [entriesOf, List.forall_mem_append]

end

/-! ## From entries to sketches -/

mutual
theorem Sketch.le_of_mem_entries : ∀ {t : Sketch α} {d : Nat}, ∀ a ∈ t.entries d, d ≤ a.1
  | .item label below, d => by
      rw [Sketch.entries, List.forall_mem_cons]
      exact ⟨Nat.le_refl d, fun a ha => Nat.le_of_succ_le (le_of_mem_entriesOf a ha)⟩
theorem le_of_mem_entriesOf : ∀ {ts : List (Sketch α)} {d : Nat}, ∀ a ∈ entriesOf d ts, d ≤ a.1
  | [], d => by simp [entriesOf]
  | t :: ts, d => by
      rw [entriesOf, List.forall_mem_append]
      exact ⟨Sketch.le_of_mem_entries, le_of_mem_entriesOf⟩
end

theorem head?_entriesOf {ts : List (Sketch α)} {d : Nat} :
    ∀ a ∈ (entriesOf d ts).head?, a.1 = d := by
  rcases ts with _ | ⟨⟨label, below⟩, ts⟩
  · simp [entriesOf]
  · rintro a ⟨rfl⟩
    rfl

/-- The first sketch of a list is its label and the run of deeper entries behind it. -/
theorem entries_append_inj {t t' : Sketch α} {ts ts' : List (Sketch α)} {d : Nat}
    (h : t.entries d ++ entriesOf d ts = t'.entries d ++ entriesOf d ts') :
    t.entries d = t'.entries d ∧ entriesOf d ts = entriesOf d ts' := by
  have hdeeper : ∀ {below : List (Sketch α)}, ∀ a ∈ entriesOf (d + 1) below,
      decide (d < a.1) = true := fun a ha => decide_eq_true (le_of_mem_entriesOf a ha)
  have hbeside : ∀ {ts : List (Sketch α)}, ∀ a ∈ (entriesOf d ts).head?,
      decide (d < a.1) = false := by
    intro ts a ha
    rw [head?_entriesOf a ha]
    exact decide_eq_false (Nat.lt_irrefl d)
  obtain ⟨label, below⟩ := t
  obtain ⟨label', below'⟩ := t'
  simp only [Sketch.entries, List.cons_append, List.cons.injEq] at h ⊢
  obtain ⟨hlabel, hrest⟩ := h
  obtain ⟨hbelow, hts⟩ := append_inj_of_run hdeeper hbeside hdeeper hbeside hrest
  exact ⟨⟨hlabel, hbelow⟩, hts⟩

-- The induction follows the first sketch. The other one goes along, since one list of
-- entries is empty only if the other one is.
mutual
theorem Sketch.eq_of_entries : ∀ {t t' : Sketch α} {d : Nat}, t.entries d = t'.entries d → t = t'
  | .item label below, .item label' below', d, h => by
      rw [Sketch.entries, Sketch.entries, List.cons.injEq, Prod.mk.injEq] at h
      obtain ⟨⟨-, hlabel⟩, hbelow⟩ := h
      rw [hlabel, eq_of_entriesOf hbelow]
theorem eq_of_entriesOf : ∀ {ts ts' : List (Sketch α)} {d : Nat},
    entriesOf d ts = entriesOf d ts' → ts = ts'
  | [], [], _, _ => rfl
  | [], .item _ _ :: _, _, h => nomatch h
  | .item _ _ :: _, [], _, h => nomatch h
  | t :: ts, t' :: ts', d, h => by
      rw [entriesOf, entriesOf] at h
      obtain ⟨ht, hts⟩ := entries_append_inj h
      rw [Sketch.eq_of_entries ht, eq_of_entriesOf hts]
end

/-! ## From lines to entries -/

theorem toList_line (depth : Nat) (content : String) :
    (line depth content).toList = List.replicate (2 * depth) ' ' ++ (content.toList ++ ['\n']) := by
  rw [line, String.toList_append, String.toList_append, String.toList_ofList, List.append_assoc]
  rfl

theorem lines_cons (write : α → String) (a : Nat × α) (as : List (Nat × α)) :
    lines write (a :: as) = line a.1 (write a.2) ++ lines write as := by
  rw [lines, List.map_cons, String.join_cons]
  rfl

theorem lines_append (write : α → String) (as bs : List (Nat × α)) :
    lines write (as ++ bs) = lines write as ++ lines write bs := by
  rw [lines, List.map_append, String.join_append]
  rfl

theorem FitsLine.head?_append_newline {content : String} (h : FitsLine content)
    (rest : List Char) : ∀ c ∈ (content.toList ++ '\n' :: rest).head?, (c == ' ') = false := by
  have hblank := h.blank
  cases hcontent : content.toList with
  | nil => simp
  | cons first others =>
      rintro c ⟨rfl⟩
      rw [hcontent] at hblank
      exact beq_false_of_ne (hblank first rfl)

theorem FitsLine.ne_newline {content : String} (h : FitsLine content) :
    ∀ c ∈ content.toList, (c != '\n') = true := by
  rintro c hc
  rw [bne_iff_ne]
  rintro rfl
  exact h.newline hc

theorem lines_item (write : α → String) (d : Nat) (label : α) (below : List (Sketch α)) :
    lines write ((Sketch.item label below).entries d) =
      line d (write label) ++ lines write (entriesOf (d + 1) below) := by
  rw [Sketch.entries, lines_cons]

theorem lines_entriesOf_cons (write : α → String) (d : Nat) (t : Sketch α)
    (ts : List (Sketch α)) :
    lines write (entriesOf d (t :: ts)) =
      lines write (t.entries d) ++ lines write (entriesOf d ts) := by
  rw [entriesOf, lines_append]

theorem lines_entriesOf_nil (write : α → String) (d : Nat) :
    lines write (entriesOf d ([] : List (Sketch α))) = "" := rfl

/-- The first line of a text can be read off: its indentation is the blanks in front,
and its content goes on to the first newline. -/
theorem line_append_inj {d d' : Nat} {content content' rest rest' : String}
    (hfits : FitsLine content) (hfits' : FitsLine content')
    (h : line d content ++ rest = line d' content' ++ rest') :
    d = d' ∧ content = content' ∧ rest = rest' := by
  have hlist := congrArg String.toList h
  simp only [String.toList_append, toList_line, List.append_assoc, List.singleton_append]
    at hlist
  have hblank : ∀ d : Nat, ∀ c ∈ List.replicate (2 * d) ' ', (c == ' ') = true := by
    intro d c hc
    rw [List.eq_of_mem_replicate hc]
    rfl
  obtain ⟨hindent, hline⟩ := append_inj_of_run (hblank d)
    (hfits.head?_append_newline rest.toList) (hblank d')
    (hfits'.head?_append_newline rest'.toList) hlist
  obtain ⟨hcontent, hrest⟩ := append_inj_of_run hfits.ne_newline (by simp) hfits'.ne_newline
    (by simp) hline
  have hdepth : 2 * d = 2 * d' := by simpa using congrArg List.length hindent
  exact ⟨by omega, String.toList_inj.mp hcontent, String.toList_inj.mp (List.cons.inj hrest).2⟩

section

variable {write : α → String} {Legible : α → Prop} (hfits : ∀ l, Legible l → FitsLine (write l))
  (hwrite : ∀ l l', Legible l → Legible l' → write l = write l' → l = l')

include hfits hwrite

theorem entries_of_lines {as bs : List (Nat × α)} (has : ∀ a ∈ as, Legible a.2)
    (hbs : ∀ b ∈ bs, Legible b.2) (h : lines write as = lines write bs) : as = bs := by
  have hline : ∀ (a : Nat × α) (as : List (Nat × α)), lines write (a :: as) ≠ "" := by
    intro a as hempty
    have hlist := congrArg String.toList hempty
    rw [lines_cons, String.toList_append, toList_line] at hlist
    simp at hlist
  induction as generalizing bs with
  | nil =>
      cases bs with
      | nil => rfl
      | cons b bs => exact absurd h.symm (hline b bs)
  | cons a as ih =>
      cases bs with
      | nil => exact absurd h (hline a as)
      | cons b bs =>
          rw [List.forall_mem_cons] at has hbs
          rw [lines_cons, lines_cons] at h
          obtain ⟨hdepth, hlabel, hrest⟩ :=
            line_append_inj (hfits a.2 has.1) (hfits b.2 hbs.1) h
          rw [Prod.ext hdepth (hwrite a.2 b.2 has.1 hbs.1 hlabel), ih has.2 hbs.2 hrest]

/-- **Indentation.** Sketches with legible labels are determined by their lines. -/
theorem sketches_of_lines {ts ts' : List (Sketch α)} {d : Nat}
    (hts : ∀ a ∈ entriesOf d ts, Legible a.2) (hts' : ∀ a ∈ entriesOf d ts', Legible a.2)
    (h : lines write (entriesOf d ts) = lines write (entriesOf d ts')) : ts = ts' :=
  eq_of_entriesOf (entries_of_lines hfits hwrite hts hts' h)

end

end Outline

end Pictoscript
