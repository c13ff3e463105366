import Pictoscript.Tree

/-! # Trees up to positions

Erasing a tree moves all its positions to the start of the text. Two trees are
the same up to positions if their erasures are equal.
-/

namespace Pictoscript

def Name.erase (name : Name) : Name := ⟨name.text, .start⟩

mutual
def Node.erase : Node → Node
  | .number value _ => .number value .start
  | .text value _ => .text value .start
  | .boolean value _ => .boolean value .start
  | .variable name _ => .variable name .start
  | .array elements _ => .array (eraseNodes elements) .start
  | .expression content _ => .expression content.erase .start
  | .declaration name value _ => .declaration name.erase value.erase .start
  | .assignment target value _ => .assignment target.erase value.erase .start
  | .branch condition consequent none _ =>
    .branch condition.erase (eraseNodes consequent) none .start
  | .branch condition consequent (some alternative) _ =>
    .branch condition.erase (eraseNodes consequent) (some (eraseNodes alternative)) .start
  | .loop condition body _ => .loop condition.erase (eraseNodes body) .start
  | .definition name parameters body _ =>
    .definition name.erase (parameters.map Name.erase) (eraseNodes body) .start
  | .call name arguments _ => .call name.erase (eraseNodes arguments) .start
  | .index offset _ => .index offset .start
  | .print value _ => .print value.erase .start
def Expression.erase : Expression → Expression
  | ⟨left, operator, none, grouped, _⟩ => ⟨left.erase, operator, none, grouped, .start⟩
  | ⟨left, operator, some right, grouped, _⟩ =>
    ⟨left.erase, operator, some right.erase, grouped, .start⟩
def eraseNodes : List Node → List Node
  | [] => []
  | n :: ns => n.erase :: eraseNodes ns
end

def Program.erase (p : Program) : Program := ⟨eraseNodes p.statements, .start⟩

@[simp] theorem Node.erase_position (n : Node) : n.erase.position = .start := by
  cases n with
  | branch condition consequent alternative p => cases alternative <;> rfl
  | _ => rfl

@[simp] theorem Expression.erase_grouped (e : Expression) : e.erase.grouped = e.grouped := by
  obtain ⟨left, operator, right, grouped, p⟩ := e
  cases right <;> rfl

/-- The parts of an expression are erased one by one, so changing its flag makes
no difference. -/
theorem Expression.erase_with_grouped (e : Expression) (g : Bool) :
    { e with grouped := g }.erase = { e.erase with grouped := g } := by
  obtain ⟨left, operator, right, grouped, p⟩ := e
  cases right <;> rfl

theorem Expression.erase_ofOperand (n : Node) : (ofOperand n).erase = ofOperand n.erase := by
  rw [ofOperand, ofOperand, Node.erase_position]
  rfl

/-- Making a condition of a node commutes with erasure. -/
theorem Expression.erase_ofNode (n : Node) : (ofNode n).erase = ofNode n.erase := by
  cases n with
  | expression content p => rfl
  | branch condition consequent alternative p => cases alternative <;> rfl
  | _ => exact erase_ofOperand _

/-- Grouping commutes with erasure. -/
theorem Expression.erase_group (n : Node) : (group n).erase = group n.erase := by
  cases n with
  | expression content p =>
      rw [group, Node.erase, group, erase_grouped]
      split
      · rfl
      · exact erase_with_grouped content true
  | branch condition consequent alternative p => cases alternative <;> rfl
  | _ => rfl

end Pictoscript
