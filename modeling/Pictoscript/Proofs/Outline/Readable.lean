import Pictoscript.Proofs.Erasure
import Pictoscript.Proofs.Outline.Labels
import Pictoscript.Proofs.Shape

/-! # Outlines are readable

The outline of a program that was read determines the program up to positions. An
outline is the text of a sketch (`Outline.nodes_eq_lines`), whose labels are legible
because names are symbols and quoted texts have no blanks (`Shape.legible_nodes`). So
the text gives the sketch back, and from the sketch the tree is read without its
positions (`Outline.Sketch.node?`).
-/

namespace Pictoscript

open Outline

/-! ## The sketch of a tree -/

mutual
def Node.sketch : Node → Sketch Label
  | .number value _ => .item (.number value) []
  | .text value _ => .item (.text value) []
  | .boolean value _ => .item (.boolean value) []
  | .variable name _ => .item (.variable name) []
  | .array elements _ => .item .array (sketches elements)
  | .expression content _ => content.sketch
  | .declaration name value _ => .item (.declaration name.text) [value.sketch]
  | .assignment target value _ => .item (.assignment target.text) [value.sketch]
  | .branch condition consequent none _ =>
    .item .branch [condition.sketch, .item .consequent (sketches consequent)]
  | .branch condition consequent (some alternative) _ =>
    .item .branch [condition.sketch, .item .consequent (sketches consequent),
      .item .alternative (sketches alternative)]
  | .loop condition body _ => .item .loop [condition.sketch, .item .body (sketches body)]
  | .definition name parameters body _ =>
    .item (.definition name.text (parameters.map Name.text)) [.item .body (sketches body)]
  | .call name arguments _ => .item (.call name.text) (sketches arguments)
  | .index offset _ => .item (.index offset) []
  | .print value _ => .item .print [value.sketch]
def Expression.sketch : Expression → Sketch Label
  | ⟨left, operator, none, grouped, _⟩ => .item (.expression operator grouped) [left.sketch]
  | ⟨left, operator, some right, grouped, _⟩ =>
    .item (.expression operator grouped) [left.sketch, right.sketch]
def sketches : List Node → List (Sketch Label)
  | [] => []
  | n :: ns => n.sketch :: sketches ns
end

mutual
theorem Outline.node_eq_lines (d : Nat) : ∀ n : Node,
    Outline.node d n = lines Label.content (n.sketch.entries d)
  | .number .. | .text .. | .boolean .. | .variable .. | .index .. => by
      simp only [Outline.node, Node.sketch, lines_item, lines_entriesOf_nil, Label.content,
        Label.keyword, Label.details, ← String.append_assoc, String.reduceAppend,
        String.append_empty]
      rfl
  | .expression content _ => Outline.expression_eq_lines d content
  | .declaration _ value _ | .assignment _ value _ => by
      have hvalue := Outline.node_eq_lines (d + 1) value
      simp only [Outline.node, Node.sketch, lines_item, lines_entriesOf_cons,
        lines_entriesOf_nil, hvalue, Label.content, Label.keyword, Label.details,
        ← String.append_assoc, String.reduceAppend, String.append_empty]
      rfl
  | .print value _ => by
      have hvalue := Outline.node_eq_lines (d + 1) value
      simp only [Outline.node, Node.sketch, lines_item, lines_entriesOf_cons,
        lines_entriesOf_nil, hvalue, Label.content, Label.keyword, Label.details,
        String.reduceAppend, String.append_empty]
  | .array elements _ => by
      have helements := Outline.nodes_eq_lines (d + 1) elements
      simp only [Outline.node, Node.sketch, lines_item, helements, Label.content,
        Label.keyword, Label.details, String.append_empty]
  | .call name arguments _ => by
      have harguments := Outline.nodes_eq_lines (d + 1) arguments
      simp only [Outline.node, Node.sketch, lines_item, harguments, Label.content,
        Label.keyword, Label.details, ← String.append_assoc, String.reduceAppend]
      rfl
  | .branch condition consequent none _ => by
      have hcondition := Outline.expression_eq_lines (d + 1) condition
      have hconsequent := Outline.nodes_eq_lines (d + 2) consequent
      simp only [Outline.node, Node.sketch, lines_item, lines_entriesOf_cons,
        lines_entriesOf_nil, hcondition, hconsequent, ← String.append_assoc, String.append_empty]
      rfl
  | .branch condition consequent (some alternative) _ => by
      have hcondition := Outline.expression_eq_lines (d + 1) condition
      have hconsequent := Outline.nodes_eq_lines (d + 2) consequent
      have halternative := Outline.nodes_eq_lines (d + 2) alternative
      simp only [Outline.node, Node.sketch, lines_item, lines_entriesOf_cons,
        lines_entriesOf_nil, hcondition, hconsequent, halternative, ← String.append_assoc,
        String.append_empty]
      rfl
  | .loop condition body _ => by
      have hcondition := Outline.expression_eq_lines (d + 1) condition
      have hbody := Outline.nodes_eq_lines (d + 2) body
      simp only [Outline.node, Node.sketch, lines_item, lines_entriesOf_cons,
        lines_entriesOf_nil, hcondition, hbody, ← String.append_assoc, String.append_empty]
      rfl
  | .definition name parameters body _ => by
      have hbody := Outline.nodes_eq_lines (d + 2) body
      simp only [Outline.node, Node.sketch, lines_item, lines_entriesOf_cons,
        lines_entriesOf_nil, hbody, Label.content, Label.keyword, Label.details,
        ← String.append_assoc, String.reduceAppend, String.append_empty]
      rfl
theorem Outline.expression_eq_lines (d : Nat) : ∀ e : Expression,
    Outline.expression d e = lines Label.content (e.sketch.entries d)
  | ⟨left, operator, none, grouped, _⟩ => by
      have hleft := Outline.node_eq_lines (d + 1) left
      simp only [Outline.expression, Expression.sketch, lines_item, lines_entriesOf_cons,
        lines_entriesOf_nil, hleft, Label.content, Label.keyword, Label.details, heading,
        ← String.append_assoc, String.append_empty]
  | ⟨left, operator, some right, grouped, _⟩ => by
      have hleft := Outline.node_eq_lines (d + 1) left
      have hright := Outline.node_eq_lines (d + 1) right
      simp only [Outline.expression, Expression.sketch, lines_item, lines_entriesOf_cons,
        lines_entriesOf_nil, hleft, hright, Label.content, Label.keyword, Label.details, heading,
        ← String.append_assoc, String.append_empty]
theorem Outline.nodes_eq_lines (d : Nat) : ∀ ns : List Node,
    Outline.nodes d ns = lines Label.content (entriesOf d (sketches ns))
  | [] => rfl
  | n :: ns => by
      rw [Outline.nodes, sketches, lines_entriesOf_cons, Outline.node_eq_lines d n,
        Outline.nodes_eq_lines d ns]
end

mutual
/-- Positions are not part of a sketch. -/
theorem Node.sketch_erase : ∀ n : Node, n.erase.sketch = n.sketch
  | .number .. | .text .. | .boolean .. | .variable .. | .index .. => rfl
  | .array elements _ => by
      simp only [Node.erase, Node.sketch, sketches_eraseNodes elements]
  | .expression content _ => content.sketch_erase
  | .declaration _ value _ | .assignment _ value _ | .print value _ => by
      simp only [Node.erase, Node.sketch, Name.erase, value.sketch_erase]
  | .branch condition consequent none _ => by
      simp only [Node.erase, Node.sketch, condition.sketch_erase, sketches_eraseNodes consequent]
  | .branch condition consequent (some alternative) _ => by
      simp only [Node.erase, Node.sketch, condition.sketch_erase, sketches_eraseNodes consequent,
        sketches_eraseNodes alternative]
  | .loop condition body _ => by
      simp only [Node.erase, Node.sketch, condition.sketch_erase, sketches_eraseNodes body]
  | .definition name parameters body _ => by
      simp only [Node.erase, Node.sketch, Name.erase, sketches_eraseNodes body, List.map_map]
      rfl
  | .call name arguments _ => by
      simp only [Node.erase, Node.sketch, Name.erase, sketches_eraseNodes arguments]
theorem Expression.sketch_erase : ∀ e : Expression, e.erase.sketch = e.sketch
  | ⟨left, operator, none, grouped, _⟩ => by
      simp only [Expression.erase, Expression.sketch, left.sketch_erase]
  | ⟨left, operator, some right, grouped, _⟩ => by
      simp only [Expression.erase, Expression.sketch, left.sketch_erase, right.sketch_erase]
theorem sketches_eraseNodes : ∀ ns : List Node, sketches (eraseNodes ns) = sketches ns
  | [] => rfl
  | n :: ns => by
      simp only [eraseNodes, sketches, n.sketch_erase, sketches_eraseNodes ns]
end

/-! ## Reading a sketch -/

mutual
/-- The tree that a sketch shows. It stands at the start of the text. -/
def Outline.Sketch.node? : Sketch Label → Option Node
  | .item (.number value) [] => some (.number value .start)
  | .item (.text value) [] => some (.text value .start)
  | .item (.boolean value) [] => some (.boolean value .start)
  | .item (.variable name) [] => some (.variable name .start)
  | .item .array elements => do return .array (← nodes? elements) .start
  | .item (.expression operator grouped) [left] => do
    return .expression ⟨← left.node?, operator, none, grouped, .start⟩ .start
  | .item (.expression operator grouped) [left, right] => do
    return .expression ⟨← left.node?, operator, some (← right.node?), grouped, .start⟩ .start
  | .item (.declaration name) [value] => do
    return .declaration ⟨name, .start⟩ (← value.node?) .start
  | .item (.assignment target) [value] => do
    return .assignment ⟨target, .start⟩ (← value.node?) .start
  | .item .branch [condition, .item .consequent consequent] => do
    return .branch (.ofNode (← condition.node?)) (← nodes? consequent) none .start
  | .item .branch [condition, .item .consequent consequent, .item .alternative alternative] => do
    return .branch (.ofNode (← condition.node?)) (← nodes? consequent)
      (some (← nodes? alternative)) .start
  | .item .loop [condition, .item .body body] => do
    return .loop (.ofNode (← condition.node?)) (← nodes? body) .start
  | .item (.definition name parameters) [.item .body body] => do
    return .definition ⟨name, .start⟩ (parameters.map fun x => ⟨x, .start⟩) (← nodes? body) .start
  | .item (.call name) arguments => do return .call ⟨name, .start⟩ (← nodes? arguments) .start
  | .item (.index offset) [] => some (.index offset .start)
  | .item .print [value] => do return .print (← value.node?) .start
  | _ => none
def Outline.nodes? : List (Sketch Label) → Option (List Node)
  | [] => some []
  | t :: ts => do return (← t.node?) :: (← nodes? ts)
end

mutual
theorem Node.node?_sketch : ∀ n : Node, n.sketch.node? = some n.erase
  | .number .. | .text .. | .boolean .. | .variable .. | .index .. => rfl
  | .array elements _ => by
      simp [Node.sketch, Sketch.node?, nodes?_sketches elements, Node.erase]
  | .expression content _ => content.node?_sketch
  | .declaration _ value _ | .assignment _ value _ | .print value _ => by
      simp [Node.sketch, Sketch.node?, value.node?_sketch, Node.erase, Name.erase]
  | .branch condition consequent none _ => by
      simp [Node.sketch, Sketch.node?, condition.node?_sketch, nodes?_sketches consequent,
        Node.erase, Expression.ofNode]
  | .branch condition consequent (some alternative) _ => by
      simp [Node.sketch, Sketch.node?, condition.node?_sketch, nodes?_sketches consequent,
        nodes?_sketches alternative, Node.erase, Expression.ofNode]
  | .loop condition body _ => by
      simp [Node.sketch, Sketch.node?, condition.node?_sketch, nodes?_sketches body,
        Node.erase, Expression.ofNode]
  | .definition name parameters body _ => by
      simp [Node.sketch, Sketch.node?, nodes?_sketches body, Node.erase, Name.erase]
  | .call name arguments _ => by
      simp [Node.sketch, Sketch.node?, nodes?_sketches arguments, Node.erase, Name.erase]
theorem Expression.node?_sketch : ∀ e : Expression,
    e.sketch.node? = some (.expression e.erase .start)
  | ⟨left, operator, none, grouped, _⟩ => by
      simp [Expression.sketch, Sketch.node?, left.node?_sketch, Expression.erase]
  | ⟨left, operator, some right, grouped, _⟩ => by
      simp [Expression.sketch, Sketch.node?, left.node?_sketch, right.node?_sketch,
        Expression.erase]
theorem nodes?_sketches : ∀ ns : List Node, nodes? (sketches ns) = some (eraseNodes ns)
  | [] => rfl
  | n :: ns => by
      simp [sketches, nodes?, n.node?_sketch, nodes?_sketches ns, eraseNodes]
end

/-- Lists of trees with one sketch differ in positions only, and the other way round. -/
theorem sketches_eq_iff {ns ms : List Node} :
    sketches ns = sketches ms ↔ eraseNodes ns = eraseNodes ms := by
  constructor
  · intro h
    have hread := nodes?_sketches ns
    rw [h, nodes?_sketches ms] at hread
    exact (Option.some.inj hread).symm
  · intro h
    rw [← sketches_eraseNodes ns, h, sketches_eraseNodes ms]

/-! ## Trees that are read -/

namespace Shape

theorem newline_not_mem_of_isText {value : String} (h : read.isText value = true) :
    '\n' ∉ value.toList :=
  fun hmem => absurd (List.all_eq_true.mp h '\n' hmem) (by decide)

mutual
theorem legible_node : ∀ (n : Node) (place : Place), read.node place n = true →
    ∀ d, ∀ a ∈ n.sketch.entries d, a.2.Legible
  | .number value _, _, h, _ => by
      simp only [node, Bool.and_eq_true, decide_eq_true_eq] at h
      exact forall_entries_item.mpr ⟨h.1, forall_entriesOf_nil⟩
  | .text value _, _, h, _ =>
      forall_entries_item.mpr ⟨newline_not_mem_of_isText h, forall_entriesOf_nil⟩
  | .boolean _ _, _, _, _ | .index _ _, _, _, _ =>
      forall_entries_item.mpr ⟨trivial, forall_entriesOf_nil⟩
  | .variable _ _, _, h, _ => forall_entries_item.mpr ⟨h, forall_entriesOf_nil⟩
  | .array elements _, _, h, _ =>
      forall_entries_item.mpr
        ⟨trivial, legible_nodes elements (exists_place_of_items h) _⟩
  | .expression content _, _, h, d => by
      simp only [node, Bool.and_eq_true] at h
      exact legible_expression content h.2 d
  | .declaration _ value _, _, h, d | .assignment _ value _, _, h, d => by
      simp only [node, Bool.and_eq_true] at h
      have hvalue := legible_node value _ h.2 (d + 1)
      exact forall_entries_item.mpr
        ⟨h.1.2, forall_entriesOf_cons.mpr ⟨hvalue, forall_entriesOf_nil⟩⟩
  | .print value _, _, h, d => by
      simp only [node, Bool.and_eq_true] at h
      have hvalue := legible_node value _ h.2 (d + 1)
      exact forall_entries_item.mpr
        ⟨trivial, forall_entriesOf_cons.mpr ⟨hvalue, forall_entriesOf_nil⟩⟩
  | .branch condition consequent none _, _, h, d => by
      simp only [node, Bool.and_eq_true] at h
      have hcondition := legible_expression condition h.1.2 (d + 1)
      have hconsequent := legible_nodes consequent (exists_place_of_block h.2) (d + 2)
      simp only [Node.sketch, forall_entries_item, forall_entriesOf_cons]
      exact ⟨trivial, hcondition, ⟨trivial, hconsequent⟩, forall_entriesOf_nil⟩
  | .branch condition consequent (some alternative) _, _, h, d => by
      simp only [node, Bool.and_eq_true] at h
      have hcondition := legible_expression condition h.1.1.2 (d + 1)
      have hconsequent := legible_nodes consequent (exists_place_of_block h.1.2) (d + 2)
      have halternative := legible_nodes alternative (exists_place_of_block h.2) (d + 2)
      simp only [Node.sketch, forall_entries_item, forall_entriesOf_cons]
      exact ⟨trivial, hcondition, ⟨trivial, hconsequent⟩, ⟨trivial, halternative⟩,
        forall_entriesOf_nil⟩
  | .loop condition body _, _, h, d => by
      simp only [node, Bool.and_eq_true] at h
      have hcondition := legible_expression condition h.1.2 (d + 1)
      have hbody := legible_nodes body (exists_place_of_block h.2) (d + 2)
      simp only [Node.sketch, forall_entries_item, forall_entriesOf_cons]
      exact ⟨trivial, hcondition, ⟨trivial, hbody⟩, forall_entriesOf_nil⟩
  | .definition name parameters body _, _, h, d => by
      simp only [node, Bool.and_eq_true, List.all_eq_true] at h
      have hbody := legible_nodes body (exists_place_of_block h.2) (d + 2)
      have hnames : (Label.definition name.text (parameters.map Name.text)).Legible := by
        rw [Label.Legible, List.forall_mem_cons, List.forall_mem_map]
        exact ⟨h.1.1.2, h.1.2⟩
      simp only [Node.sketch, forall_entries_item, forall_entriesOf_cons]
      exact ⟨hnames, ⟨trivial, hbody⟩, forall_entriesOf_nil⟩
  | .call _ arguments _, _, h, d => by
      simp only [node, Bool.and_eq_true] at h
      have harguments := legible_nodes arguments (exists_place_of_items h.2) (d + 1)
      exact forall_entries_item.mpr ⟨h.1, harguments⟩
theorem legible_expression : ∀ e : Expression, read.expression e = true →
    ∀ d, ∀ a ∈ e.sketch.entries d, a.2.Legible
  | ⟨left, none, none, _, _⟩, h, d | ⟨left, some .not, none, _, _⟩, h, d => by
      have hleft := legible_node left _ h (d + 1)
      exact forall_entries_item.mpr
        ⟨trivial, forall_entriesOf_cons.mpr ⟨hleft, forall_entriesOf_nil⟩⟩
  | ⟨left, some op, some right, _, _⟩, h, d => by
      rw [expression_joined] at h
      simp only [Bool.and_eq_true] at h
      have hleft := legible_node left _ h.1.2 (d + 1)
      have hright := legible_node right _ h.2 (d + 1)
      simp only [Expression.sketch, forall_entries_item, forall_entriesOf_cons]
      exact ⟨trivial, hleft, hright, forall_entriesOf_nil⟩
theorem legible_nodes : ∀ ns : List Node, (∀ n ∈ ns, ∃ place, read.node place n = true) →
    ∀ d, ∀ a ∈ entriesOf d (sketches ns), a.2.Legible
  | [], _, _ => forall_entriesOf_nil
  | n :: ns, h, d => by
      obtain ⟨⟨place, hn⟩, hns⟩ := List.forall_mem_cons.mp h
      exact forall_entriesOf_cons.mpr ⟨legible_node n place hn d, legible_nodes ns hns d⟩
end

end Shape

/-- All lines of the outline of a program that was read are legible. -/
theorem Program.legible_of_ofSource {source : String} {p : Program}
    (h : Program.ofSource source = .ok p) :
    ∀ a ∈ entriesOf 1 (sketches p.statements), a.2.Legible :=
  Shape.legible_nodes p.statements (Shape.exists_place_of_block (Shape.block_of_ofSource h)) 1

/-- **Outlines are readable.** Two programs that were read have the same outline if
and only if they are the same up to positions. -/
theorem Program.outline_eq_iff {source source' : String} {p q : Program}
    (hp : Program.ofSource source = .ok p) (hq : Program.ofSource source' = .ok q) :
    p.outline = q.outline ↔ p.erase = q.erase := by
  have hlines : p.outline = q.outline ↔ lines Label.content (entriesOf 1 (sketches p.statements)) =
      lines Label.content (entriesOf 1 (sketches q.statements)) := by
    rw [Program.outline, Program.outline, String.append_right_inj, Outline.nodes_eq_lines,
      Outline.nodes_eq_lines]
  have hstatements : p.erase = q.erase ↔ sketches p.statements = sketches q.statements := by
    rw [Program.erase, Program.erase, Program.mk.injEq, and_iff_left rfl, sketches_eq_iff]
  rw [hlines, hstatements]
  constructor
  · intro h
    exact sketches_of_lines (fun _ => Label.fitsLine) (fun _ _ => Label.eq_of_content)
      (legible_of_ofSource hp) (legible_of_ofSource hq) h
  · intro h
    rw [h]

/-- A branch with an empty alternative, written on one line and on three. -/
theorem Program.outline_eq_iff_branch :
    ∃ p q, Program.ofSource "🤔 🍉 👉 💭 ⏹" = .ok p ∧
      Program.ofSource "🤔\n🍉 👉\n💭 ⏹" = .ok q ∧
      p.statements ≠ q.statements ∧ p.outline = q.outline ∧ p.erase = q.erase := by
  have htokens : tokenize "🤔 🍉 👉 💭 ⏹" =
      ⟨[⟨.branch, ⟨1, 1⟩⟩, ⟨.symbol "🍉", ⟨1, 3⟩⟩, ⟨.arrow, ⟨1, 5⟩⟩, ⟨.otherwise, ⟨1, 7⟩⟩,
        ⟨.stop, ⟨1, 9⟩⟩], ⟨1, 10⟩⟩ := by
    decide +kernel
  have htokens' : tokenize "🤔\n🍉 👉\n💭 ⏹" =
      ⟨[⟨.branch, ⟨1, 1⟩⟩, ⟨.symbol "🍉", ⟨2, 1⟩⟩, ⟨.arrow, ⟨2, 3⟩⟩, ⟨.otherwise, ⟨3, 1⟩⟩,
        ⟨.stop, ⟨3, 3⟩⟩], ⟨3, 4⟩⟩ := by
    decide +kernel
  have hp : Program.ofSource "🤔 🍉 👉 💭 ⏹" =
      .ok ⟨[.branch ⟨.variable "🍉" ⟨1, 3⟩, none, none, false, ⟨1, 3⟩⟩ [] (some []) ⟨1, 1⟩],
        ⟨1, 1⟩⟩ := by
    rw [Program.ofSource, htokens]
    rfl
  have hq : Program.ofSource "🤔\n🍉 👉\n💭 ⏹" =
      .ok ⟨[.branch ⟨.variable "🍉" ⟨2, 1⟩, none, none, false, ⟨2, 1⟩⟩ [] (some []) ⟨1, 1⟩],
        ⟨1, 1⟩⟩ := by
    rw [Program.ofSource, htokens']
    rfl
  exact ⟨_, _, hp, hq, by simp, rfl, (outline_eq_iff hp hq).mp rfl⟩

end Pictoscript
