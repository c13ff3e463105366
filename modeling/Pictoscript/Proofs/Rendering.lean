import Pictoscript.Proofs.Shape
import Pictoscript.Script

/-! # How trees are rendered

Equations of the renderers for the trees that are read. Barriers around an
expression put parentheses around its text and nothing else, whether or not they
make an expression of its own in the tree, and a condition is rendered like the
node that it was made from.
-/

namespace Pictoscript

namespace Rendering

variable {α β γ : Type}

theorem id_map (r : Rendering α) : id <$> r = r := by
  funext s
  change Rendering.bind r (fun a => Rendering.pure (id a)) s = r s
  rw [Rendering.bind]
  split
  · next heq => rw [heq]; rfl
  · next heq => rw [heq]

theorem bind_assoc (r : Rendering α) (f : α → Rendering β) (g : β → Rendering γ) :
    r >>= f >>= g = r >>= fun a => f a >>= g := by
  funext s
  simp only [bind_apply]
  obtain ⟨result, t⟩ := r s
  cases result <;> rfl

instance : LawfulMonad Rendering := .mk' _ id_map (fun _ _ => rfl) bind_assoc

/-- A result that is only changed in form. -/
theorem map_eq_ok_iff {r : Rendering α} {f : α → β} {s t : Scopes} {b : β} :
    (do let a ← r; return f a : Rendering β) s = (.ok b, t) ↔
      ∃ a, r s = (.ok a, t) ∧ f a = b := by
  rw [bind_eq_ok_iff]
  constructor
  · rintro ⟨a, s₁, hr, hpure⟩
    cases hpure
    exact ⟨a, hr, rfl⟩
  · rintro ⟨a, hr, rfl⟩
    exact ⟨a, t, hr, rfl⟩

theorem inBlock_eq_ok {r : Rendering α} {s t : Scopes} {a : α} (h : inBlock r s = (.ok a, t)) :
    ∃ inner, r s.enter = (.ok a, inner) := by
  unfold inBlock at h
  cases hr : r s.enter with
  | mk result inner =>
      simp only [hr] at h
      split at h
      · cases h
        exact ⟨inner, rfl⟩
      · cases h

end Rendering

namespace Script

variable {sink : Sink}

theorem expression_of_ne_not {left right : Node} {op : Operator} {g : Bool} {q : Position}
    (h : op ≠ .not) : Script.expression sink ⟨left, some op, some right, g, q⟩ = (do
      let first ← Script.node sink left
      let second ← Script.node sink right
      return enclose g (asOperand left first ++ op.script ++ asOperand right second)) := by
  cases op with
  | not => exact absurd rfl h
  | _ => rfl

theorem members_cons {n : Node} {ns : List Node} {done : List Fragment}
    (h : n.isIndex = false) : members sink done (n :: ns) = (do
      let text ← Script.node sink n
      members sink (⟨text, n.isValue⟩ :: done) ns) := by
  cases n with
  | index offset q => cases h
  | _ => rfl

/-- Barriers that are marked in an expression itself. -/
theorem expression_grouped (left : Node) (op : Option Operator) (right : Option Node)
    (q : Position) : Script.expression sink ⟨left, op, right, true, q⟩ = (do
      let text ← Script.expression sink ⟨left, op, right, false, q⟩
      return parenthesized text) := by
  rcases op with _ | op
  · cases right with
    | none => simp [Script.expression, enclose]
    | some right => rfl
  · by_cases hop : op = .not
    · subst hop
      cases right with
      | none => simp [Script.expression, enclose]
      | some right => rfl
    · cases right with
      | none => cases op <;> first | rfl | exact absurd rfl hop
      | some right => simp [expression_of_ne_not hop, enclose]

/-- Barriers put parentheses around a text. -/
theorem node_group (n : Node) (p : Position) :
    Script.node sink (.expression (.group n) p) = (do
      let text ← Script.node sink n
      return parenthesized text) := by
  cases n with
  | expression content q =>
      obtain ⟨left, op, right, grouped, r⟩ := content
      cases grouped with
      | true => rfl
      | false => exact expression_grouped left op right r
  | _ => rfl

/-- A condition has the text of the node that it was made from. -/
theorem expression_ofNode (n : Node) :
    Script.expression sink (.ofNode n) = Script.node sink n := by
  cases n with
  | expression content p => rfl
  | _ => simp [Expression.ofNode, Expression.ofOperand, Script.expression, enclose]

theorem isBareOperation_group (n : Node) (p : Position) :
    (Node.expression (.group n) p).isBareOperation = false := by
  have hgrouped : (Expression.group n).grouped = true := Expression.grouped_group n
  simp [Node.isBareOperation, hgrouped]

end Script

end Pictoscript
