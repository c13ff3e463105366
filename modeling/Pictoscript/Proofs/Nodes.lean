import Pictoscript.Proofs.Shape

/-! # The nodes of a tree

All nodes of a tree in one list, in the order of the text. Facts about a tree as
a whole, such as which names it mentions, are facts about the members of that
list. What holds of every node for its own sake is not affected by barriers: they
change expressions only.
-/

namespace Pictoscript

mutual
def Node.descendants : Node → List Node
  | .array elements _ => Node.among elements
  | .expression content _ => content.nodes
  | .declaration _ value _ => value :: value.descendants
  | .assignment _ value _ => value :: value.descendants
  | .branch condition consequent none _ => condition.nodes ++ Node.among consequent
  | .branch condition consequent (some alternative) _ =>
    condition.nodes ++ Node.among consequent ++ Node.among alternative
  | .loop condition body _ => condition.nodes ++ Node.among body
  | .definition _ _ body _ => Node.among body
  | .call _ arguments _ => Node.among arguments
  | .print value _ => value :: value.descendants
  | _ => []
def Expression.nodes : Expression → List Node
  | ⟨left, _, none, _, _⟩ => left :: left.descendants
  | ⟨left, _, some right, _, _⟩ => left :: left.descendants ++ right :: right.descendants
/-- The nodes of all trees in a list. -/
def Node.among : List Node → List Node
  | [] => []
  | n :: ns => n :: n.descendants ++ Node.among ns
end

def Node.nodes (n : Node) : List Node := n :: n.descendants

def Program.nodes (p : Program) : List Node := Node.among p.statements

def Node.mentions : Node → List String
  | .variable name _ => [name]
  | .declaration name _ _ => [name.text]
  | .assignment target _ _ => [target.text]
  | .definition name parameters _ _ => name.text :: parameters.map Name.text
  | .call name _ _ => [name.text]
  | _ => []

variable {P : Node → Prop} {n : Node}

/-! ## Barriers and conditions -/

theorem forall_nodes_expression (hP : ∀ content p, P (.expression content p)) {e : Expression}
    {p : Position} :
    (∀ m ∈ (Node.expression e p).nodes, P m) ↔ ∀ m ∈ e.nodes, P m := by
  simp [Node.nodes, Node.descendants, hP]

theorem nodes_with_grouped (e : Expression) (g : Bool) :
    ({ e with grouped := g } : Expression).nodes = e.nodes := by
  obtain ⟨left, op, right, grouped, p⟩ := e
  cases right <;> rfl

theorem forall_nodes_group (hP : ∀ content p, P (.expression content p)) {p : Position} :
    (∀ m ∈ (Node.expression (.group n) p).nodes, P m) ↔ ∀ m ∈ n.nodes, P m := by
  rw [forall_nodes_expression hP]
  cases n with
  | expression content q =>
      rw [Expression.group]
      split
      · exact Iff.rfl
      · rw [nodes_with_grouped, forall_nodes_expression hP]
  | _ => exact Iff.rfl

theorem forall_nodes_ofNode (hP : ∀ content p, P (.expression content p)) :
    (∀ m ∈ (Expression.ofNode n).nodes, P m) ↔ ∀ m ∈ n.nodes, P m := by
  cases n with
  | expression content p => exact (forall_nodes_expression hP).symm
  | _ => exact Iff.rfl

/-! ## Shapes -/

namespace Shape

variable {σ : Shape}

mutual
/-- All nodes of a tree with a shape have it, each in its place. -/
theorem exists_place_of_descendants : ∀ (n : Node) (place : Place), σ.node place n = true →
    ∀ m ∈ n.descendants, ∃ place', σ.node place' m = true
  | .number .., _, _ | .text .., _, _ | .boolean .., _, _ | .variable .., _, _
  | .index .., _, _ => by simp [Node.descendants]
  | .array elements _, _, h => exists_place_of_among elements (exists_place_of_items h)
  | .expression content _, _, h => by
      simp only [node, Bool.and_eq_true] at h
      exact exists_place_of_nodes content h.2
  | .declaration _ value _, _, h => by
      simp only [node, Bool.and_eq_true] at h
      rw [Node.descendants, List.forall_mem_cons]
      exact ⟨⟨_, h.2⟩, exists_place_of_descendants value _ h.2⟩
  | .assignment _ value _, _, h => by
      simp only [node, Bool.and_eq_true] at h
      rw [Node.descendants, List.forall_mem_cons]
      exact ⟨⟨_, h.2⟩, exists_place_of_descendants value _ h.2⟩
  | .print value _, _, h => by
      simp only [node, Bool.and_eq_true] at h
      rw [Node.descendants, List.forall_mem_cons]
      exact ⟨⟨_, h.2⟩, exists_place_of_descendants value _ h.2⟩
  | .branch condition consequent none _, _, h => by
      simp only [node, Bool.and_eq_true] at h
      rw [Node.descendants, List.forall_mem_append]
      exact ⟨exists_place_of_nodes condition h.1.2,
        exists_place_of_among consequent (exists_place_of_block h.2)⟩
  | .branch condition consequent (some alternative) _, _, h => by
      simp only [node, Bool.and_eq_true] at h
      rw [Node.descendants, List.forall_mem_append, List.forall_mem_append]
      exact ⟨⟨exists_place_of_nodes condition h.1.1.2,
        exists_place_of_among consequent (exists_place_of_block h.1.2)⟩,
        exists_place_of_among alternative (exists_place_of_block h.2)⟩
  | .loop condition body _, _, h => by
      simp only [node, Bool.and_eq_true] at h
      rw [Node.descendants, List.forall_mem_append]
      exact ⟨exists_place_of_nodes condition h.1.2,
        exists_place_of_among body (exists_place_of_block h.2)⟩
  | .definition _ _ body _, _, h => by
      simp only [node, Bool.and_eq_true] at h
      exact exists_place_of_among body (exists_place_of_block h.2)
  | .call _ arguments _, _, h => by
      simp only [node, Bool.and_eq_true] at h
      exact exists_place_of_among arguments (exists_place_of_items h.2)
theorem exists_place_of_nodes : ∀ e : Expression, σ.expression e = true →
    ∀ m ∈ e.nodes, ∃ place, σ.node place m = true
  | ⟨left, none, none, _, _⟩, h => by
      rw [Expression.nodes, List.forall_mem_cons]
      exact ⟨⟨_, h⟩, exists_place_of_descendants left _ h⟩
  | ⟨left, some .not, none, _, _⟩, h => by
      rw [Expression.nodes, List.forall_mem_cons]
      exact ⟨⟨_, h⟩, exists_place_of_descendants left _ h⟩
  | ⟨left, some op, some right, _, _⟩, h => by
      rw [expression_joined] at h
      simp only [Bool.and_eq_true] at h
      rw [Expression.nodes, List.forall_mem_append, List.forall_mem_cons, List.forall_mem_cons]
      exact ⟨⟨⟨_, h.1.2⟩, exists_place_of_descendants left _ h.1.2⟩,
        ⟨_, h.2⟩, exists_place_of_descendants right _ h.2⟩
theorem exists_place_of_among : ∀ ns : List Node, (∀ n ∈ ns, ∃ place, σ.node place n = true) →
    ∀ m ∈ Node.among ns, ∃ place, σ.node place m = true
  | [], _ => by simp [Node.among]
  | n :: ns, h => by
      obtain ⟨⟨place, hn⟩, hns⟩ := List.forall_mem_cons.mp h
      rw [Node.among, List.forall_mem_append, List.forall_mem_cons]
      exact ⟨⟨⟨place, hn⟩, exists_place_of_descendants n place hn⟩, exists_place_of_among ns hns⟩
end

theorem isName_of_mentions {place : Place} (h : σ.node place n = true) :
    ∀ x ∈ n.mentions, σ.isName x = true := by
  cases n with
  | branch condition consequent alternative q => simp [Node.mentions]
  | _ => simp_all [Node.mentions, node]

end Shape

/-- Names in a program that was read are runs of symbols. -/
theorem Program.isSymbol_of_mentions {source : String} {p : Program}
    (h : Program.ofSource source = .ok p) {n : Node} (hn : n ∈ p.nodes) :
    ∀ x ∈ n.mentions, Pictograph.isSymbol x.toList = true := by
  have hshape := Shape.exists_place_of_block (Shape.block_of_ofSource h)
  obtain ⟨place, hplace⟩ := Shape.exists_place_of_among p.statements hshape n hn
  exact Shape.isName_of_mentions hplace

end Pictoscript
