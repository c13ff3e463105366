import Pictoscript.Proofs.JavaScript.Lexer

/-! # Text literals of a script

A text is written as one literal of the script, whatever characters it has: its own
quotes and backslashes are escaped, so it never ends its literal, and its line ends
are, so that none stands in the script. Reading a literal stops at the first quote
that is not escaped and gives the text back, with all that stands behind the literal
left over.
-/

namespace Pictoscript

namespace Js

/-- Reads the literal at the front of a text: what it denotes, and the text behind it. -/
def readLiteral (text : String) : Option (String × String) :=
  match text.toList with
  | '"' :: cs => (literal? cs).map fun (value, rest) => (String.ofList value, String.ofList rest)
  | _ => none

theorem readLiteral_of_literal? {text : String} {cs value rest : List Char}
    (htext : text.toList = '"' :: cs) (h : literal? cs = some (value, rest)) :
    readLiteral text = some (String.ofList value, String.ofList rest) := by
  rw [readLiteral, htext]
  show (literal? cs).map _ = _
  rw [h]
  rfl

/-! ## Reading on -/

/-- What stands behind a literal does not matter for reading it. -/
theorem literal?_append {cs value rest : List Char} (h : literal? cs = some (value, rest))
    (more : List Char) : literal? (cs ++ more) = some (value, rest ++ more) := by
  fun_induction literal? cs generalizing value with
  | case1 => cases h
  | case2 =>
      cases h
      cases more <;> rfl
  | case3 => cases h
  | case4 d cs =>
      cases h
      rfl
  | case5 d cs hquote ih =>
      obtain ⟨⟨value', rest'⟩, hread, heq⟩ := Option.map_eq_some_iff.mp h
      cases heq
      rw [List.cons_append, List.cons_append, literal?, if_neg hquote, if_pos rfl, ih hread]
      rfl
  | case6 => cases h
  | case7 c d cs hquote hbackslash hline ih =>
      obtain ⟨⟨value', rest'⟩, hread, heq⟩ := Option.map_eq_some_iff.mp h
      cases heq
      have htail := ih hread
      rw [List.cons_append] at htail
      rw [List.cons_append, List.cons_append, literal?, if_neg hquote, if_neg hbackslash,
        if_neg hline, htail]
      rfl

theorem readLiteral_append {text value rest : String} (h : readLiteral text = some (value, rest))
    (more : String) : readLiteral (text ++ more) = some (value, rest ++ more) := by
  unfold readLiteral at h
  split at h
  · next cs hcs =>
    obtain ⟨⟨value', rest'⟩, hread, heq⟩ := Option.map_eq_some_iff.mp h
    cases heq
    have hchars : (text ++ more).toList = '"' :: (cs ++ more.toList) := by
      rw [String.toList_append, hcs, List.cons_append]
    rw [readLiteral_of_literal? hchars (literal?_append hread more.toList), String.ofList_append,
      String.ofList_toList]
  · cases h

theorem readLiteral_quoted_append (v r : String) :
    readLiteral (Script.quoted v ++ r) = some (v, r) := by
  have hchars : (Script.quoted v ++ r).toList =
      '"' :: (v.toList.flatMap Script.escape ++ '"' :: r.toList) := by
    simp [Script.quoted]
  rw [readLiteral_of_literal? hchars (literal?_escape v.toList r.toList), String.ofList_toList,
    String.ofList_toList]

/-! ## Lines -/

theorem not_mem_escape (c : Char) : '\n' ∉ Script.escape c ∧ '\r' ∉ Script.escape c := by
  unfold Script.escape
  split
  · decide
  · decide
  · decide
  · decide
  · decide
  · next hline hreturn _ =>
    exact ⟨by simpa using Ne.symm hline, by simpa using Ne.symm hreturn⟩

theorem not_mem_quoted (v : String) :
    '\n' ∉ (Script.quoted v).toList ∧ '\r' ∉ (Script.quoted v).toList := by
  simp [Script.quoted, not_mem_escape]

/-- **Literals decode back.** The literal of a text is read as that text, with whatever
stands behind it left over. No line ends within it, different texts have different
literals, and no part of a literal from its opening quote on is a literal already. -/
theorem readLiteral_quoted (v : String) :
    (∀ r, readLiteral (Script.quoted v ++ r) = some (v, r)) ∧
      ('\n' ∉ (Script.quoted v).toList ∧ '\r' ∉ (Script.quoted v).toList) ∧
      Function.Injective Script.quoted ∧
      ∀ front behind, front ++ behind = Script.quoted v → behind ≠ "" →
        readLiteral front = none := by
  refine ⟨readLiteral_quoted_append v, not_mem_quoted v, ?_, ?_⟩
  · intro w w' h
    have hw := readLiteral_quoted_append w ""
    rw [h, readLiteral_quoted_append] at hw
    cases hw
    rfl
  · intro front behind hsplit hbehind
    cases hfront : readLiteral front with
    | none => rfl
    | some read =>
        obtain ⟨value, rest⟩ := read
        -- The part would be read, and the rest of the literal left over.
        have hwhole := readLiteral_append hfront behind
        have hquoted := readLiteral_quoted_append v ""
        rw [String.append_empty, ← hsplit, hwhole] at hquoted
        have hempty : rest ++ behind = "" := congrArg Prod.snd (Option.some.inj hquoted)
        exact absurd (String.append_eq_empty_iff.mp hempty).2 hbehind

end Js

end Pictoscript
