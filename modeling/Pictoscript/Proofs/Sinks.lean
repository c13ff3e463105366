import Pictoscript.Proofs.Nodes
import Pictoscript.Proofs.Static.Semantics

/-! # One tree, two sinks

A tree is rendered twice, once for each sink. The two runs are followed side by side:
they bind the same names in the same frames and fail at the same step with the same
error, or their texts consist of the same pieces, with one call of the sink between
each two of them.

The runs do not go through the same scopes, for a name is bound together with the text
of its value, and that text may call the sink. So the states of the two runs are
compared by the names in their frames only, which is all that a step ever asks for.
-/

namespace Pictoscript

def Node.isPrint : Node → Bool
  | .print .. => true
  | _ => false

def prints (ns : List Node) : Nat := ns.countP Node.isPrint

theorem prints_append (ms ns : List Node) : prints (ms ++ ns) = prints ms + prints ns :=
  List.countP_append

theorem prints_cons_of_pos {n : Node} (h : n.isPrint = true) (ns : List Node) :
    prints (n :: ns) = prints ns + 1 := List.countP_cons_of_pos h

namespace Sinks

open Rendering

/-! ## Texts side by side -/

/-- The texts consist of the same pieces, joined by the `n` calls of the two sinks. -/
def Parallel (n : Nat) (a b : String) : Prop :=
  ∃ pieces : List String, pieces.length = n + 1 ∧
    a = Sink.plain.callee.intercalate pieces ∧ b = Sink.rich.callee.intercalate pieces

variable {m n : Nat} {a b c d : String}

theorem parallel_same (a : String) : Parallel 0 a a := ⟨[a], rfl, by simp, by simp⟩

theorem parallel_callee : Parallel 1 Sink.plain.callee Sink.rich.callee :=
  ⟨["", ""], rfl, by simp, by simp⟩

/-- Where two joined texts meet, their last and first piece become one. -/
theorem intercalate_meet (s x y : String) (before behind : List String) :
    s.intercalate (before ++ (x ++ y) :: behind) =
      s.intercalate (before ++ [x]) ++ s.intercalate (y :: behind) := by
  by_cases h : before = []
  · subst h
    simp
  · rw [String.intercalate_append_of_ne_nil h (by simp),
      String.intercalate_append_of_ne_nil h (by simp), String.intercalate_cons_append,
      String.intercalate_singleton]
    simp only [String.append_assoc]

theorem Parallel.append (h : Parallel m a b) (h' : Parallel n c d) :
    Parallel (m + n) (a ++ c) (b ++ d) := by
  obtain ⟨pieces, hlength, rfl, rfl⟩ := h
  obtain ⟨pieces', hlength', rfl, rfl⟩ := h'
  obtain ⟨before, x, rfl⟩ : ∃ before x, pieces = before ++ [x] := by
    obtain rfl | hconcat := List.eq_nil_or_concat pieces
    · cases hlength
    · simpa using hconcat
  cases pieces' with
  | nil => cases hlength'
  | cons y behind =>
      refine ⟨before ++ (x ++ y) :: behind, ?_, ?_, ?_⟩
      · simp only [List.length_append, List.length_cons, List.length_nil] at *
        omega
      · rw [intercalate_meet]
      · rw [intercalate_meet]

theorem Parallel.behind (h : Parallel n a b) (front : String) :
    Parallel n (front ++ a) (front ++ b) := by
  have happend := (parallel_same front).append h
  rwa [Nat.zero_add] at happend

theorem Parallel.before (h : Parallel n a b) (back : String) :
    Parallel n (a ++ back) (b ++ back) := h.append (parallel_same back)

theorem Parallel.between (h : Parallel n a b) (front back : String) :
    Parallel n (front ++ a ++ back) (front ++ b ++ back) := (h.behind front).before back

theorem Parallel.enclose (h : Parallel n a b) (grouped : Bool) :
    Parallel n (Script.enclose grouped a) (Script.enclose grouped b) := by
  cases grouped with
  | false => exact h
  | true => exact h.between "(" ")"

theorem Parallel.asOperand (h : Parallel n a b) (operand : Node) :
    Parallel n (Script.asOperand operand a) (Script.asOperand operand b) := by
  unfold Script.asOperand
  split
  · exact h.between "(" ")"
  · exact h

/-- The fragments are pairwise the same but for the sink, which they call `n` times. -/
inductive ParallelAll : Nat → List Script.Fragment → List Script.Fragment → Prop where
  | nil : ParallelAll 0 [] []
  | cons {m n : Nat} {a b : String} {isValue : Bool} {done done' : List Script.Fragment}
      (before : ParallelAll m done done') (last : Parallel n a b) :
      ParallelAll (m + n) (⟨a, isValue⟩ :: done) (⟨b, isValue⟩ :: done')

variable {done done' : List Script.Fragment}

theorem ParallelAll.intercalate (h : ParallelAll n done done') (separator : String) :
    Parallel n (separator.intercalate (Script.texts done))
      (separator.intercalate (Script.texts done')) := by
  have htexts : ∀ (f : Script.Fragment) (fs : List Script.Fragment),
      Script.texts (f :: fs) = Script.texts fs ++ [f.text] := by simp [Script.texts]
  induction h with
  | nil => exact parallel_same _
  | cons before last ih =>
      rw [htexts, htexts]
      cases before with
      | nil =>
          rw [Nat.zero_add]
          simpa [Script.texts] using last
      | cons before' last' =>
          rw [String.intercalate_append_of_ne_nil (by simp [Script.texts]) (by simp),
            String.intercalate_append_of_ne_nil (by simp [Script.texts]) (by simp),
            String.intercalate_singleton, String.intercalate_singleton]
          exact (ih.before separator).append last

theorem ParallelAll.enumeration (h : ParallelAll n done done') :
    Parallel n (Script.enumeration done) (Script.enumeration done') := h.intercalate ","

theorem ParallelAll.sequence (h : ParallelAll n done done') :
    Parallel n (Script.sequence done) (Script.sequence done') := h.intercalate ";"

/-- A keyword, a condition and a block. -/
theorem Parallel.guarded (h : Parallel m a b) (hblock : ParallelAll n done done')
    (keyword : String) :
    Parallel (m + n)
      (keyword ++ Script.parenthesized a ++ Script.braced (Script.sequence done))
      (keyword ++ Script.parenthesized b ++ Script.braced (Script.sequence done')) :=
  ((h.between "(" ")").behind keyword).append (hblock.sequence.between "\x7b" "\x7d")

/-! ## Steps side by side -/

/-- The scopes bind the same names in the same frames. -/
structure SameNames (s t : Scopes) : Prop where
  current : s.current.names = t.current.names
  outer : s.outer.map Frame.names = t.outer.map Frame.names

variable {α β : Type} {R : α → α → Prop} {Q : β → β → Prop} {s t : Scopes}

theorem SameNames.contextOf (h : SameNames s t) : Static.contextOf s = Static.contextOf t := by
  rw [Static.contextOf, Static.contextOf, List.flatMap_def, List.flatMap_def, h.outer, h.current]

theorem SameNames.lookup (h : SameNames s t) (name : String) :
    (s.lookup name).isSome = (t.lookup name).isSome := by
  rw [Bool.eq_iff_iff, Static.scopes_lookup_isSome_iff, Static.scopes_lookup_isSome_iff,
    h.contextOf]

theorem SameNames.lookupCurrent (h : SameNames s t) (name : String) :
    (s.lookupCurrent name).isSome = (t.lookupCurrent name).isSome := by
  rw [Bool.eq_iff_iff, Static.lookupCurrent_isSome_iff, Static.lookupCurrent_isSome_iff,
    h.contextOf]

theorem SameNames.enter (h : SameNames s t) : SameNames s.enter t.enter := by
  refine ⟨rfl, ?_⟩
  simp only [Scopes.enter, List.map_cons, h.current, h.outer]

/-- Both blocks can be left or neither. -/
theorem SameNames.leave (h : SameNames s t) :
    (s.leave = (.error .exitGlobal, s) ∧ t.leave = (.error .exitGlobal, t)) ∨
      ∃ s' t', s.leave = (.ok (), s') ∧ t.leave = (.ok (), t') ∧ SameNames s' t' := by
  obtain ⟨scurrent, souter⟩ := s
  obtain ⟨tcurrent, touter⟩ := t
  match souter, touter, h.outer with
  | [], [], _ => exact .inl ⟨rfl, rfl⟩
  | _ :: _, _ :: _, houter =>
      obtain ⟨hframe, hframes⟩ := List.cons.inj houter
      exact .inr ⟨_, _, rfl, rfl, hframe, hframes⟩

/-- Two steps end in the same error or in related values, with the same names bound. -/
inductive SameEnd (R : α → α → Prop) :
    Except SemanticError α × Scopes → Except SemanticError α × Scopes → Prop where
  | ok {a b : α} {s t : Scopes} (values : R a b) (names : SameNames s t) :
      SameEnd R (.ok a, s) (.ok b, t)
  | error (e : SemanticError) {s t : Scopes} (names : SameNames s t) :
      SameEnd R (.error e, s) (.error e, t)

/-- From scopes with the same names the two renderings come to the same end. -/
def Alike (R : α → α → Prop) (r r' : Rendering α) : Prop :=
  ∀ s t, SameNames s t → SameEnd R (r s) (r' t)

theorem alike_pure {a b : α} (h : R a b) : Alike R (pure a) (pure b) := by
  intro s t hnames
  exact .ok h hnames

theorem alike_fail (e : SemanticError) : Alike R (fail e) (fail e) := by
  intro s t hnames
  exact .error e hnames

theorem Alike.bind {r r' : Rendering α} {k k' : α → Rendering β} (h : Alike R r r')
    (hk : ∀ a b, R a b → Alike Q (k a) (k' b)) : Alike Q (r >>= k) (r' >>= k') := by
  intro s t hnames
  have hend := h s t hnames
  rw [bind_apply, bind_apply]
  cases hr : r s with
  | mk result s' =>
      cases hr' : r' t with
      | mk result' t' =>
          rw [hr, hr'] at hend
          cases hend with
          | ok values names => exact hk _ _ values _ _ names
          | error e names => exact .error e names

theorem Alike.map {r r' : Rendering α} {f g : α → β} (h : Alike R r r')
    (hfg : ∀ a b, R a b → Q (f a) (g b)) :
    Alike Q (r >>= fun a => pure (f a)) (r' >>= fun a => pure (g a)) :=
  h.bind fun a b hab => alike_pure (hfg a b hab)

/-- A block is left for the frames around it, where the names are the same. -/
theorem Alike.inBlock {r r' : Rendering α} (h : Alike R r r') :
    Alike R (Rendering.inBlock r) (Rendering.inBlock r') := by
  intro s t hnames
  have hend := h s.enter t.enter hnames.enter
  unfold Rendering.inBlock
  cases hr : r s.enter with
  | mk result u =>
      cases hr' : r' t.enter with
      | mk result' v =>
          rw [hr, hr'] at hend
          dsimp only
          cases hend with
          | ok values names =>
              obtain ⟨hu, hv⟩ | ⟨u', v', hu, hv, hleft⟩ := names.leave
              · rw [hu, hv]
                exact .error _ names
              · rw [hu, hv]
                exact .ok values hleft
          | error e names =>
              obtain ⟨hu, hv⟩ | ⟨u', v', hu, hv, hleft⟩ := names.leave
              · rw [hu, hv]
                exact .error _ names
              · rw [hu, hv]
                exact .error e hleft

theorem alike_requireBound (name : Name) :
    Alike Eq (requireBound name) (requireBound name) := by
  intro s t hnames
  unfold requireBound
  rw [hnames.lookup]
  split
  · exact .ok rfl hnames
  · exact .error _ hnames

theorem alike_requireFree (name : Name) : Alike Eq (requireFree name) (requireFree name) := by
  intro s t hnames
  unfold requireFree
  rw [hnames.lookup]
  split
  · exact .error _ hnames
  · exact .ok rfl hnames

/-- What a name is bound with makes no difference. -/
theorem alike_bindName (name : Name) (kind : Binding.Kind) (value value' : String) :
    Alike Eq (bindName name kind value) (bindName name kind value') := by
  intro s t hnames
  unfold bindName Scopes.define
  rw [hnames.lookupCurrent]
  by_cases htaken : (t.lookupCurrent name.text).isSome = true
  · rw [if_pos htaken, if_pos htaken]
    exact .error _ hnames
  · rw [if_neg htaken, if_neg htaken]
    refine .ok rfl ⟨?_, hnames.outer⟩
    show Frame.names _ = Frame.names _
    rw [Frame.names, Frame.names, List.map_append, List.map_append]
    exact congrArg (· ++ [name.text]) hnames.current

theorem alike_bindParameters (parameters : List Name) :
    Alike Eq (bindParameters parameters) (bindParameters parameters) := by
  induction parameters with
  | nil => exact alike_pure rfl
  | cons p ps ih => exact (alike_bindName p .parameter p.text p.text).bind fun _ _ _ => ih

/-- A subscript goes to the same fragment in both runs. -/
theorem alike_subscript (offset : Nat) (p : Position) (h : ParallelAll n done done') :
    Alike (ParallelAll n) (ofExcept (Script.subscript offset p done))
      (ofExcept (Script.subscript offset p done')) := by
  intro s t hnames
  cases h with
  | nil => exact .error _ hnames
  | @cons _ _ _ _ isValue _ _ before last =>
      cases isValue with
      | false => exact .error _ hnames
      | true => exact .ok (.cons before (last.before _)) hnames

/-! ## Trees side by side -/

mutual
theorem alike_node : ∀ n : Node,
    Alike (Parallel (prints n.nodes)) (Script.node .plain n) (Script.node .rich n)
  | .number _ _ => alike_pure (parallel_same _)
  | .text _ _ => alike_pure (parallel_same _)
  | .boolean _ _ => alike_pure (parallel_same _)
  | .variable _ _ => alike_pure (parallel_same _)
  | .array elements _ => by
      refine (alike_members elements .nil).map fun _ _ h => ?_
      rw [Nat.zero_add] at h
      exact h.enumeration.between "[" "]"
  | .expression content _ => alike_expression content
  | .declaration name value _ => by
      refine (alike_node value).bind fun a b h => ?_
      exact (alike_bindName name .variable a b).map fun _ _ _ => h.behind _
  | .assignment _ value _ => (alike_node value).map fun _ _ h => h.behind _
  | .branch condition consequent none _ => by
      show Alike (Parallel (prints (condition.nodes ++ Node.among consequent))) _ _
      rw [prints_append]
      refine (alike_expression condition).bind fun a b htest => ?_
      refine (alike_members consequent .nil).inBlock.map fun _ _ hblock => ?_
      rw [Nat.zero_add] at hblock
      exact htest.guarded hblock "if"
  | .branch condition consequent (some alternative) _ => by
      show Alike (Parallel (prints (condition.nodes ++ Node.among consequent ++
        Node.among alternative))) _ _
      rw [prints_append, prints_append]
      refine (alike_expression condition).bind fun a b htest => ?_
      refine (alike_members consequent .nil).inBlock.bind fun _ _ hblock => ?_
      refine (alike_members alternative .nil).inBlock.map fun _ _ hother => ?_
      rw [Nat.zero_add] at hblock hother
      exact ((htest.guarded hblock "if").before "else").append
        (hother.sequence.between "\x7b" "\x7d")
  | .loop condition body _ => by
      show Alike (Parallel (prints (condition.nodes ++ Node.among body))) _ _
      rw [prints_append]
      refine (alike_expression condition).bind fun a b htest => ?_
      refine (alike_members body .nil).inBlock.map fun _ _ hblock => ?_
      rw [Nat.zero_add] at hblock
      exact htest.guarded hblock "while"
  | .definition name parameters body _ => by
      refine (alike_requireFree name).bind fun _ _ _ => ?_
      refine (alike_bindName name .function name.text name.text).bind fun _ _ _ => ?_
      have hbody := (alike_bindParameters parameters).bind fun _ _ _ => alike_members body .nil
      refine hbody.inBlock.map fun _ _ hblock => ?_
      rw [Nat.zero_add] at hblock
      exact (hblock.sequence.between "\x7b" "\x7d").behind _
  | .call name arguments _ => by
      refine (alike_requireBound name).bind fun _ _ _ => ?_
      refine (alike_members arguments .nil).map fun _ _ h => ?_
      rw [Nat.zero_add] at h
      exact (h.enumeration.between "(" ")").behind _
  | .index _ _ => alike_fail _
  | .print value p => by
      show Alike (Parallel (prints (.print value p :: value.nodes))) _ _
      rw [prints_cons_of_pos rfl, Nat.add_comm]
      exact (alike_node value).map fun _ _ h => (parallel_callee.append h).before ")"
theorem alike_expression : ∀ e : Expression,
    Alike (Parallel (prints e.nodes)) (Script.expression .plain e) (Script.expression .rich e)
  | ⟨left, none, none, grouped, _⟩ => (alike_node left).map fun _ _ h => h.enclose grouped
  | ⟨_, none, some _, _, _⟩ => alike_fail _
  | ⟨left, some op, none, grouped, _⟩ => by
      cases op with
      | not =>
          exact (alike_node left).map fun _ _ h => ((h.asOperand left).behind "!").enclose grouped
      | _ => exact alike_fail _
  | ⟨left, some op, some right, grouped, _⟩ => by
      by_cases hop : op = .not
      · subst hop
        exact alike_fail _
      · rw [Script.expression_of_ne_not hop, Script.expression_of_ne_not hop]
        show Alike (Parallel (prints (left.nodes ++ right.nodes))) _ _
        rw [prints_append]
        refine (alike_node left).bind fun _ _ hleft => ?_
        refine (alike_node right).map fun _ _ hright => ?_
        exact (((hleft.asOperand left).before op.script).append
          (hright.asOperand right)).enclose grouped
/-- Members go behind fragments that are alike already. -/
theorem alike_members : ∀ (ns : List Node) {k : Nat} {done done' : List Script.Fragment},
    ParallelAll k done done' →
    Alike (ParallelAll (k + prints (Node.among ns))) (Script.members .plain done ns)
      (Script.members .rich done' ns)
  | [], _, _, _, h => alike_pure h
  | n :: ns, k, done, done', h => by
      cases hindex : n.isIndex with
      | false =>
          show Alike (ParallelAll (k + prints (n.nodes ++ Node.among ns))) _ _
          rw [Script.members_cons hindex, Script.members_cons hindex, prints_append,
            ← Nat.add_assoc]
          exact (alike_node n).bind fun _ _ hn => alike_members ns (.cons h hn)
      | true =>
          cases n with
          | index offset p =>
              exact (alike_subscript offset p h).bind fun _ _ h' => alike_members ns h'
          | _ => cases hindex
end

end Sinks

/-- **The sink matters only where it is called.** For every tree both scripts fail with
the same error, or they consist of the same pieces, joined by the calls of the two
sinks, one for each node that prints. -/
theorem Program.script_sinks (p : Program) :
    (∃ e, p.script .plain = .error e ∧ p.script .rich = .error e) ∨
      ∃ pieces : List String, pieces.length = p.nodes.countP Node.isPrint + 1 ∧
        p.script .plain = .ok ("console.log(".intercalate pieces) ∧
        p.script .rich = .ok ("window.alert(".intercalate pieces) := by
  have hend := Sinks.alike_members p.statements .nil .global .global ⟨rfl, rfl⟩
  rw [Program.script, Program.script]
  cases hplain : Script.members .plain [] p.statements .global with
  | mk result s =>
      cases hrich : Script.members .rich [] p.statements .global with
      | mk result' t =>
          rw [hplain, hrich] at hend
          cases hend with
          | error e names => exact .inl ⟨e, rfl, rfl⟩
          | ok fragments names =>
              obtain ⟨pieces, hlength, hplain, hrich⟩ := fragments.sequence
              rw [Nat.zero_add] at hlength
              exact .inr ⟨pieces, hlength, congrArg _ hplain, congrArg _ hrich⟩

end Pictoscript
