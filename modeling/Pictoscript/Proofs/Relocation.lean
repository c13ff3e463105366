import Pictoscript.Proofs.Grammar.Written
import Pictoscript.Proofs.Lexing.Positions
import Pictoscript.Proofs.Transcription

/-! # Trees at other positions

Relocating a tree by a function on positions applies the function to every
position in it, and to nothing else. It is the transcription that keeps every
spelling. The grammar does not look at positions, so relocated tokens write the
relocated tree.
-/

namespace Pictoscript

variable (f : Position → Position)

def Name.relocate (name : Name) : Name := ⟨name.text, f name.position⟩

mutual
def Node.relocate : Node → Node
  | .number value p => .number value (f p)
  | .text value p => .text value (f p)
  | .boolean value p => .boolean value (f p)
  | .variable name p => .variable name (f p)
  | .array elements p => .array (relocateNodes elements) (f p)
  | .expression content p => .expression content.relocate (f p)
  | .declaration name value p => .declaration (name.relocate f) value.relocate (f p)
  | .assignment target value p => .assignment (target.relocate f) value.relocate (f p)
  | .branch condition consequent none p =>
    .branch condition.relocate (relocateNodes consequent) none (f p)
  | .branch condition consequent (some alternative) p =>
    .branch condition.relocate (relocateNodes consequent) (some (relocateNodes alternative)) (f p)
  | .loop condition body p => .loop condition.relocate (relocateNodes body) (f p)
  | .definition name parameters body p =>
    .definition (name.relocate f) (parameters.map (Name.relocate f)) (relocateNodes body) (f p)
  | .call name arguments p => .call (name.relocate f) (relocateNodes arguments) (f p)
  | .index offset p => .index offset (f p)
  | .print value p => .print value.relocate (f p)
def Expression.relocate : Expression → Expression
  | ⟨left, operator, none, grouped, p⟩ => ⟨left.relocate, operator, none, grouped, f p⟩
  | ⟨left, operator, some right, grouped, p⟩ =>
    ⟨left.relocate, operator, some right.relocate, grouped, f p⟩
def relocateNodes : List Node → List Node
  | [] => []
  | n :: ns => n.relocate :: relocateNodes ns
end

/-! ## Relocating as transcribing -/

namespace Transcription

/-- Moves what it transcribes and leaves it otherwise as it is. -/
def moving : Transcription := ⟨f, id, fun units => by rw [List.map_id, id]⟩

variable {f}

theorem token_moving (t : Token) : (moving f).token t = t := by
  cases t <;> rfl

theorem located_moving : (moving f).located = Located.relocate f := by
  funext t
  rw [located, token_moving]
  rfl

mutual
theorem node_moving : ∀ n : Node, (moving f).node n = n.relocate f
  | .number .. | .text .. | .boolean .. | .variable .. | .index .. => rfl
  | .array elements _ => by
      rw [node, nodes_moving elements]
      rfl
  | .expression content _ => by
      rw [node, expression_moving content]
      rfl
  | .declaration _ value _ => by
      rw [node, node_moving value]
      rfl
  | .assignment _ value _ => by
      rw [node, node_moving value]
      rfl
  | .branch condition consequent none _ => by
      rw [node, expression_moving condition, nodes_moving consequent]
      rfl
  | .branch condition consequent (some alternative) _ => by
      rw [node, expression_moving condition, nodes_moving consequent, nodes_moving alternative]
      rfl
  | .loop condition body _ => by
      rw [node, expression_moving condition, nodes_moving body]
      rfl
  | .definition _ _ body _ => by
      rw [node, nodes_moving body]
      rfl
  | .call _ arguments _ => by
      rw [node, nodes_moving arguments]
      rfl
  | .print value _ => by
      rw [node, node_moving value]
      rfl
theorem expression_moving : ∀ e : Expression, (moving f).expression e = e.relocate f
  | ⟨left, _, none, _, _⟩ => by
      rw [expression, node_moving left]
      rfl
  | ⟨left, _, some right, _, _⟩ => by
      rw [expression, node_moving left, node_moving right]
      rfl
theorem nodes_moving : ∀ ns : List Node, (moving f).nodes ns = relocateNodes f ns
  | [] => rfl
  | n :: ns => by rw [nodes, node_moving n, nodes_moving ns, relocateNodes]
end

end Transcription

/-- Making a condition of a node commutes with relocation. -/
theorem Expression.relocate_ofNode (n : Node) :
    (ofNode n).relocate f = ofNode (n.relocate f) := by
  rw [← Transcription.expression_moving, Transcription.expression_ofNode,
    Transcription.node_moving]

/-- Grouping commutes with relocation. -/
theorem Expression.relocate_group (n : Node) :
    (group n).relocate f = group (n.relocate f) := by
  rw [← Transcription.expression_moving, Transcription.expression_group,
    Transcription.node_moving]

namespace Grammar

open Reading

/-! ## Relocated phrases -/

def Phrase.relocate : Phrase → Phrase
  | .operand g n => .operand g (n.relocate f)
  | .chain g n => .chain g (n.relocate f)
  | .expression g n => .expression g (n.relocate f)
  | .items g ns => .items g (relocateNodes f ns)
  | .parameters names => .parameters (names.map (Name.relocate f))
  | .statement n => .statement (n.relocate f)
  | .block ns => .block (relocateNodes f ns)

theorem map_value_relocate (ts : List (Located Token)) :
    (ts.map (Located.relocate f)).map Located.value = ts.map Located.value := by
  rw [List.map_map]
  rfl

theorem head?_relocate (ts : List (Located Token)) :
    (ts.map (Located.relocate f)).head?.map Located.position =
      (ts.head?.map Located.position).map f := by
  cases ts <;> rfl

@[simp] theorem nextToken_relocate (ts : List (Located Token)) :
    nextToken (ts.map (Located.relocate f)) = nextToken ts := by
  cases ts <;> rfl

@[simp] theorem lastToken_relocate (ts : List (Located Token)) :
    lastToken (ts.map (Located.relocate f)) = lastToken ts := by
  rw [lastToken, map_value_relocate, lastToken]

theorem Apart.relocate {g : Bool} {ts us : List (Located Token)} (h : Apart g ts us) :
    Apart g (ts.map (Located.relocate f)) (us.map (Located.relocate f)) := by
  rw [Apart, lastToken_relocate, nextToken_relocate]
  exact h

theorem WritesName.relocate {name : Name} {ts : List (Located Token)} (h : WritesName name ts) :
    WritesName (name.relocate f) (ts.map (Located.relocate f)) := by
  obtain ⟨⟨units, hne, hmap, hjoin⟩, hstart⟩ := h
  refine ⟨⟨units, hne, (map_value_relocate f ts).trans hmap, hjoin⟩, ?_⟩
  rw [head?_relocate, hstart]
  rfl

theorem WritesNumber.relocate {value : Nat} {p : Position} {ts : List (Located Token)}
    (h : WritesNumber value p ts) : WritesNumber value (f p) (ts.map (Located.relocate f)) := by
  obtain ⟨⟨values, hne, hmap, hvalue⟩, hstart⟩ := h
  refine ⟨⟨values, hne, (map_value_relocate f ts).trans hmap, hvalue⟩, ?_⟩
  rw [head?_relocate, hstart]
  rfl

/-- Tokens at other positions write the same phrase at other positions. -/
theorem Written.relocate {φ : Phrase} {ts : List (Located Token)} (h : Written φ ts) :
    Written (φ.relocate f) (ts.map (Located.relocate f)) := by
  induction h with
  | number written bounded => exact .number (written.relocate f) bounded
  | text value p => exact .text value (f p)
  | boolean value p => exact .boolean value (f p)
  | reference written => exact .reference (written.relocate f)
  | array p q _ ih =>
      simp only [List.map_cons, List.map_append]
      exact .array (f p) (f q) ih
  | namedCall q r named _ ih =>
      simp only [List.map_cons, List.map_append]
      exact .namedCall (f q) (f r) (named.relocate f) ih
  | markedCall p q r named _ ih =>
      simp only [List.map_cons, List.map_append]
      exact .markedCall (f p) (f q) (f r) (named.relocate f) ih
  | group p q _ ih =>
      simp only [List.map_cons, List.map_append, Phrase.relocate, Node.relocate,
        Expression.relocate_group]
      exact .group (f p) (f q) ih
  | first _ ih => exact .first ih
  | joined p _ _ takesRight ihl ihr =>
      simp only [List.map_cons, List.map_append]
      exact .joined (f p) ihl ihr (by rwa [nextToken_relocate])
  | negated p _ ih =>
      rw [List.map_append]
      exact .negated (f p) ih
  | index p written bounded => exact .index (f p) (written.relocate f) bounded
  | ofChain _ ih => exact .ofChain ih
  | noItems => exact .noItems
  | comma p _ ih => exact .comma (f p) ih
  | item _ _ apart ihi ihm =>
      rw [List.map_append]
      exact .item ihi ihm (apart.relocate f)
  | noParameters => exact .noParameters
  | parameter p named _ ih =>
      simp only [List.map_cons, List.map_append]
      exact .parameter (f p) (named.relocate f) ih
  | declaration p q named _ ih =>
      simp only [List.map_cons, List.map_append]
      exact .declaration (f p) (f q) (named.relocate f) ih
  | assignment p q named _ ih =>
      simp only [List.map_cons, List.map_append]
      exact .assignment (f p) (f q) (named.relocate f) ih
  | branch p q r _ _ ihc ih =>
      simp only [List.map_cons, List.map_append, Phrase.relocate, Node.relocate,
        Expression.relocate_ofNode]
      exact .branch (f p) (f q) (f r) ihc ih
  | branchElse p q r s _ _ _ ihc ih iho =>
      simp only [List.map_cons, List.map_append, Phrase.relocate, Node.relocate,
        Expression.relocate_ofNode]
      exact .branchElse (f p) (f q) (f r) (f s) ihc ih iho
  | loop p q r _ _ ihc ih =>
      simp only [List.map_cons, List.map_append, Phrase.relocate, Node.relocate,
        Expression.relocate_ofNode]
      exact .loop (f p) (f q) (f r) ihc ih
  | definition p q r named _ _ ihp ih =>
      simp only [List.map_cons, List.map_append]
      exact .definition (f p) (f q) (f r) (named.relocate f) ihp ih
  | print p _ ih => exact .print (f p) ih
  | marked begins _ ih => exact .marked ((nextToken_relocate f _).trans begins) ih
  | plain begins _ ih => exact .plain (by rwa [nextToken_relocate]) ih
  | noStatements => exact .noStatements
  | statement _ _ apart ihs ihm =>
      rw [List.map_append]
      exact .statement ihs ihm (apart.relocate f)

end Grammar

end Pictoscript
