import Mathlib.Logic.Function.Basic
import Pictoscript.Compile
import Pictoscript.Proofs.Grammar.Relocated
import Pictoscript.Proofs.Lexing.Transcribed
import Pictoscript.Proofs.Static.Discipline

/-! # Layout

How many blanks stand between units, which ones and where lines begin makes no
difference to a text, except to the positions that errors cite. Two texts with the
same units have the same tokens, and a function on positions takes each token of the
one to its counterpart in the other. Neither the grammar nor the rendering looks at a
position, so the same function takes the outcome for the one text to that for the
other.

The same argument shows that errors are reported at tokens: a function that moves all
positions but those of the tokens leaves the tokens alone, and so the error as well.
-/

namespace Pictoscript

/-! ## Errors at other positions -/

section Errors

variable (f : Position → Position)

def SemanticError.relocate : SemanticError → SemanticError
  | .duplicateDeclaration name p => .duplicateDeclaration name (f p)
  | .unresolvedReference name p => .unresolvedReference name (f p)
  | .malformedExpression message p => .malformedExpression message (f p)
  | .scopeUnderflow => .scopeUnderflow

def CompileError.relocate : CompileError → CompileError
  | .parse e => .parse (e.relocate f)
  | .generate e => .generate (e.relocate f)

theorem CompileError.position?_relocate (e : CompileError) :
    (e.relocate f).position? = e.position?.map f := by
  rcases e with e | e
  · rfl
  · cases e <;> rfl

/-- All of an error but its place: the tier, the kind, the name and the message. -/
def CompileError.erase (e : CompileError) : CompileError := e.relocate fun _ => .start

theorem CompileError.erase_relocate (e : CompileError) : (e.relocate f).erase = e.erase := by
  rcases e with e | e
  · rfl
  · cases e <;> rfl

end Errors

/-! ## Rendering relocated trees -/

section Rendered

variable {α β : Type} (f : Position → Position)

/-- The same steps on the scopes, with errors reported at other positions. -/
def Rendering.relocate (r : Rendering α) : Rendering α := fun s =>
  ((r s).1.mapError (SemanticError.relocate f), (r s).2)

namespace Rendering

variable {f}

theorem bind_relocate {r r' : Rendering α} {k k' : α → Rendering β} (hr : r' = r.relocate f)
    (hk : ∀ a, k' a = (k a).relocate f) : (r' >>= k') = (r >>= k).relocate f := by
  funext s
  rw [hr, bind_apply, relocate, relocate, bind_apply]
  rcases r s with ⟨result, t⟩
  cases result with
  | ok a =>
      show k' a t = _
      rw [hk]
      rfl
  | error e => rfl

theorem eq_relocate {r r' : Rendering α}
    (h : ∀ s, r' s = ((r s).1.mapError (SemanticError.relocate f), (r s).2)) :
    r' = r.relocate f := funext h

theorem requireBound_relocate (name : Name) :
    requireBound (name.relocate f) = (requireBound name).relocate f := by
  refine eq_relocate fun s => ?_
  unfold requireBound Name.relocate
  dsimp only
  split
  · rfl
  · rfl

theorem requireFree_relocate (name : Name) :
    requireFree (name.relocate f) = (requireFree name).relocate f := by
  refine eq_relocate fun s => ?_
  unfold requireFree Name.relocate
  dsimp only
  split
  · rfl
  · rfl

theorem bindName_relocate (name : Name) (kind : Binding.Kind) (value : String) :
    bindName (name.relocate f) kind value = (bindName name kind value).relocate f := by
  refine eq_relocate fun s => ?_
  unfold bindName Name.relocate
  dsimp only
  split
  · rfl
  · next e _ _ => cases e <;> rfl

theorem bindParameters_relocate (names : List Name) :
    bindParameters (names.map (Name.relocate f)) = (bindParameters names).relocate f := by
  induction names with
  | nil => rfl
  | cons name names ih =>
      exact bind_relocate (bindName_relocate name .parameter name.text) fun _ => ih

theorem inBlock_relocate {r r' : Rendering α} (h : r' = r.relocate f) :
    inBlock r' = (inBlock r).relocate f := by
  refine eq_relocate fun s => ?_
  rw [h]
  unfold inBlock relocate
  rcases r s.enter with ⟨result, inner⟩
  dsimp only
  split
  · rfl
  · rfl

theorem subscript_relocate (offset : Nat) (p : Position) (done : List Script.Fragment) :
    ofExcept (Script.subscript offset (f p) done) =
      (ofExcept (Script.subscript offset p done)).relocate f := by
  cases done with
  | nil => rfl
  | cons last before =>
      rw [Script.subscript, Script.subscript]
      by_cases hvalue : last.isValue = true
      · rw [if_pos hvalue, if_pos hvalue]
        rfl
      · rw [if_neg hvalue, if_neg hvalue]
        rfl

end Rendering

@[simp] theorem Node.isValue_relocate (n : Node) : (n.relocate f).isValue = n.isValue := by
  cases n with
  | branch condition consequent alternative p => cases alternative <;> rfl
  | _ => rfl

@[simp] theorem Node.isIndex_relocate (n : Node) : (n.relocate f).isIndex = n.isIndex := by
  cases n with
  | branch condition consequent alternative p => cases alternative <;> rfl
  | _ => rfl

@[simp] theorem Node.isBareOperation_relocate (n : Node) :
    (n.relocate f).isBareOperation = n.isBareOperation := by
  cases n with
  | expression content p =>
      obtain ⟨left, op, right, grouped, q⟩ := content
      cases right <;> rfl
  | branch condition consequent alternative p => cases alternative <;> rfl
  | _ => rfl

namespace Script

open Rendering

variable {f} (sink : Sink)

theorem asOperand_relocate (n : Node) (text : String) :
    asOperand (n.relocate f) text = asOperand n text := by
  rw [asOperand, asOperand, Node.isBareOperation_relocate]

mutual
/-- A tree at other positions is rendered in the same way, but for the positions of
errors. -/
theorem node_relocate : ∀ n : Node,
    Script.node sink (n.relocate f) = (Script.node sink n).relocate f
  | .number _ _ => rfl
  | .text _ _ => rfl
  | .boolean _ _ => rfl
  | .variable _ _ => rfl
  | .array elements _ => bind_relocate (members_relocate elements []) fun _ => rfl
  | .expression content _ => expression_relocate content
  | .declaration name value _ => by
      refine bind_relocate (node_relocate value) fun text => ?_
      exact bind_relocate (bindName_relocate name .variable text) fun _ => rfl
  | .assignment _ value _ => bind_relocate (node_relocate value) fun _ => rfl
  | .branch condition consequent none _ => by
      refine bind_relocate (expression_relocate condition) fun _ => ?_
      exact bind_relocate (inBlock_relocate (members_relocate consequent [])) fun _ => rfl
  | .branch condition consequent (some alternative) _ => by
      refine bind_relocate (expression_relocate condition) fun _ => ?_
      refine bind_relocate (inBlock_relocate (members_relocate consequent [])) fun _ => ?_
      exact bind_relocate (inBlock_relocate (members_relocate alternative [])) fun _ => rfl
  | .loop condition body _ => by
      refine bind_relocate (expression_relocate condition) fun _ => ?_
      exact bind_relocate (inBlock_relocate (members_relocate body [])) fun _ => rfl
  | .definition name parameters body _ => by
      have htexts : (parameters.map (Name.relocate f)).map Name.text =
          parameters.map Name.text := by
        rw [List.map_map]
        rfl
      rw [Node.relocate, Script.node, Script.node, htexts]
      refine bind_relocate (requireFree_relocate name) fun _ => ?_
      refine bind_relocate (bindName_relocate name .function name.text) fun _ => ?_
      refine bind_relocate (inBlock_relocate ?_) fun _ => rfl
      exact bind_relocate (bindParameters_relocate parameters) fun _ => members_relocate body []
  | .call name arguments _ => by
      refine bind_relocate (requireBound_relocate name) fun _ => ?_
      exact bind_relocate (members_relocate arguments []) fun _ => rfl
  | .index _ _ => rfl
  | .print value _ => bind_relocate (node_relocate value) fun _ => rfl
theorem expression_relocate : ∀ e : Expression,
    Script.expression sink (e.relocate f) = (Script.expression sink e).relocate f
  | ⟨left, none, none, _, _⟩ => bind_relocate (node_relocate left) fun _ => rfl
  | ⟨_, none, some _, _, _⟩ => rfl
  | ⟨left, some op, none, grouped, _⟩ => by
      cases op with
      | not =>
          refine bind_relocate (node_relocate left) fun text => ?_
          rw [asOperand_relocate]
          rfl
      | _ => rfl
  | ⟨left, some op, some right, grouped, q⟩ => by
      by_cases hop : op = .not
      · subst hop
        rfl
      · rw [Expression.relocate, expression_of_ne_not hop, expression_of_ne_not hop]
        refine bind_relocate (node_relocate left) fun first => ?_
        refine bind_relocate (node_relocate right) fun second => ?_
        rw [asOperand_relocate, asOperand_relocate]
        rfl
theorem members_relocate : ∀ (ns : List Node) (done : List Fragment),
    members sink done (relocateNodes f ns) = (members sink done ns).relocate f
  | [], _ => rfl
  | n :: ns, done => by
      cases hindex : n.isIndex with
      | false =>
          rw [relocateNodes, members_cons (by rwa [Node.isIndex_relocate]), members_cons hindex,
            Node.isValue_relocate]
          exact bind_relocate (node_relocate n) fun text => members_relocate ns _
      | true =>
          cases n with
          | index offset p =>
              exact bind_relocate (subscript_relocate offset p done) fun done' =>
                members_relocate ns done'
          | _ => cases hindex
end

end Script

theorem Program.script_relocate (sink : Sink) (p : Program) :
    (p.relocate f).script sink = (p.script sink).mapError (SemanticError.relocate f) := by
  rw [Program.script, Program.script, Program.relocate, Script.members_relocate,
    Rendering.relocate]
  rcases Script.members sink [] p.statements .global with ⟨result, s⟩
  cases result with
  | ok fragments => rfl
  | error e => rfl

end Rendered

/-- The outcome for a text whose tokens are those of another one, relocated. -/
theorem compile_relocate {f : Position → Position} {a b : String}
    (h : tokenize b = (tokenize a).relocate f) (sink : Sink) :
    compile sink b = (compile sink a).mapError (CompileError.relocate f) := by
  rw [compile, compile, Program.ofSource, Program.ofSource, h, Program.ofTokens_relocate]
  cases Program.ofTokens (tokenize a) with
  | error e => rfl
  | ok p =>
      simp only [Except.map, Except.mapError, Program.script_relocate]
      cases p.script sink with
      | error e => rfl
      | ok script => rfl

/-! ## Errors are reported at tokens -/

/-- The position of a token stays, any other one is moved. -/
def stray (ts : List (Located Token)) (p : Position) : Position :=
  if p ∈ ts.map Located.position then p else p.advance ' '

theorem stray_of_mem {ts : List (Located Token)} {t : Located Token} (h : t ∈ ts) :
    stray ts t.position = t.position := if_pos (List.mem_map_of_mem h)

theorem mem_of_stray {ts : List (Located Token)} {p : Position} (h : stray ts p = p) :
    ∃ t ∈ ts, t.position = p := by
  by_cases hp : p ∈ ts.map Located.position
  · exact List.mem_map.mp hp
  · rw [stray, if_neg hp] at h
    exact absurd h (Position.lt_advance p ' ').ne'

theorem relocate_stray (ts : Tokens) : ts.relocate (stray ts.toList) = ts := by
  have hitems : ts.items.map (Located.relocate (stray ts.toList)) = ts.items := by
    refine (List.map_congr_left fun t ht => ?_).trans (List.map_id ts.items)
    have hmem : t ∈ ts.toList := List.mem_append_left _ ht
    rw [Located.relocate, stray_of_mem hmem]
    rfl
  have hend : ⟨.endOfInput, ts.stop⟩ ∈ ts.toList :=
    List.mem_append_right _ (List.mem_singleton_self _)
  have hstop : stray ts.toList ts.stop = ts.stop := stray_of_mem hend
  rw [Tokens.relocate, hitems, hstop]

/-- Rendering never leaves a block that was not entered, so all its errors have a
position. -/
theorem exists_position_of_script {sink : Sink} {p : Program} {e : SemanticError}
    (h : p.script sink = .error e) : ∃ q, e.position? = some q := by
  cases e with
  | scopeUnderflow =>
      have hbalanced := (Static.disciplined_members sink p.statements [] .global).balanced
      rw [Program.script] at h
      split at h
      · cases h
      · next hmembers =>
        cases h
        rw [hmembers] at hbalanced
        exact absurd rfl hbalanced
  | _ => exact ⟨_, rfl⟩

theorem exists_position_of_compile {sink : Sink} {source : String} {e : CompileError}
    (h : compile sink source = .error e) : ∃ q, e.position? = some q := by
  rw [compile] at h
  split at h
  · cases h
    exact ⟨_, rfl⟩
  · split at h
    · next hscript =>
      cases h
      exact exists_position_of_script hscript
    · cases h

/-- An error cites the position of a token, or of the end. -/
theorem exists_token_of_compile {sink : Sink} {source : String} {e : CompileError}
    (h : compile sink source = .error e) :
    ∃ t ∈ (tokenize source).toList, e.position? = some t.position := by
  obtain ⟨q, hq⟩ := exists_position_of_compile h
  -- Moving what is not the position of a token leaves the tokens as they are.
  have hsame := compile_relocate (relocate_stray (tokenize source)).symm sink
  rw [h] at hsame
  have herror : e = e.relocate (stray (tokenize source).toList) := Except.error.inj hsame
  have hstray : stray (tokenize source).toList q = q := by
    have hposition := CompileError.position?_relocate (stray (tokenize source).toList) e
    rw [← herror, hq] at hposition
    exact (Option.some.inj hposition).symm
  obtain ⟨t, ht, rfl⟩ := mem_of_stray hstray
  exact ⟨t, ht, hq⟩

/-! ## Texts with the same units -/

theorem scanRuns_relocate (f : Position → Position) (us : List (Located (List Char))) :
    scanRuns (us.map (Located.relocate f)) = (scanRuns us).map (Located.relocate f) := by
  have hchars : ∀ run, (Transcription.moving f).chars run = run := fun _ => String.toList_ofList
  have hkeeps : (Transcription.moving f).KeepsRuns := by
    refine ⟨fun run => ?_, rfl⟩
    rw [hchars, Transcription.token_moving]
  have hrun : (Transcription.moving f).run = Located.relocate f := by
    funext r
    rw [Transcription.run, hchars]
    rfl
  have hscan := hkeeps.scanRuns us
  rwa [hrun, Transcription.located_moving] at hscan

/-- Units that are moved to one place are told apart by their values alone. -/
theorem map_relocate_const {α : Type} {us vs : List (Located α)}
    (h : us.map Located.value = vs.map Located.value) (p : Position) :
    us.map (Located.relocate fun _ => p) = vs.map (Located.relocate fun _ => p) := by
  have hplace : ∀ ws : List (Located α),
      ws.map (Located.relocate fun _ => p) = (ws.map Located.value).map (⟨·, p⟩) := by
    intro ws
    rw [List.map_map]
    rfl
  rw [hplace, hplace, h]

/-- The tokens of runs do not depend on where the runs stand. -/
theorem map_value_scanRuns {us vs : List (Located (List Char))}
    (h : us.map Located.value = vs.map Located.value) :
    (scanRuns us).map Located.value = (scanRuns vs).map Located.value := by
  rw [← Grammar.map_value_relocate (fun _ => Position.start) (scanRuns us),
    ← Grammar.map_value_relocate (fun _ => Position.start) (scanRuns vs),
    ← scanRuns_relocate, ← scanRuns_relocate, map_relocate_const h]

/-- Texts with the same units have the same tokens. -/
theorem map_value_tokenize {a b : String} (h : units a.toList = units b.toList) :
    (tokenize a).toList.map Located.value = (tokenize b).toList.map Located.value := by
  have hruns : (locatedRuns a.toList).map Located.value =
      (locatedRuns b.toList).map Located.value := by
    rw [map_value_locatedRuns, map_value_locatedRuns, h]
  rw [Tokens.toList, Tokens.toList, List.map_append, List.map_append, items_tokenize,
    items_tokenize, map_value_scanRuns hruns]
  rfl

/-- Tokens at different positions can be moved, each to a place of its own. -/
theorem exists_relocate {α : Type} : ∀ {ts us : List (Located α)},
    ts.map Located.value = us.map Located.value →
    (ts.Pairwise fun s t => s.position < t.position) → ∃ f, us = ts.map (Located.relocate f)
  | [], us, hvalues, _ => by
      refine ⟨id, ?_⟩
      simpa using hvalues.symm
  | _ :: _, [], hvalues, _ => by simp at hvalues
  | t :: ts, u :: us, hvalues, hordered => by
      obtain ⟨hvalue, hvalues⟩ := List.cons.inj hvalues
      obtain ⟨hfirst, hordered⟩ := List.pairwise_cons.mp hordered
      obtain ⟨f, rfl⟩ := exists_relocate hvalues hordered
      refine ⟨Function.update f t.position u.position, ?_⟩
      have hrest : ∀ s ∈ ts,
          s.relocate (Function.update f t.position u.position) = s.relocate f := by
        intro s hs
        rw [Located.relocate, Function.update_of_ne (hfirst s hs).ne']
        rfl
      rw [List.map_cons, List.map_congr_left hrest, Located.relocate, Function.update_self, hvalue]

theorem exists_relocate_tokens {ts us : Tokens}
    (hvalues : ts.toList.map Located.value = us.toList.map Located.value)
    (hordered : ts.toList.Pairwise fun s t => s.position < t.position) :
    ∃ f, us = ts.relocate f := by
  obtain ⟨f, hf⟩ := exists_relocate hvalues hordered
  refine ⟨f, ?_⟩
  rw [Tokens.toList, Tokens.toList, List.map_append] at hf
  obtain ⟨hitems, hend⟩ := List.append_inj' hf rfl
  have hstop : us.stop = f ts.stop := congrArg Located.position (List.cons.inj hend).1
  rw [Tokens.relocate, ← hitems, ← hstop]

theorem exists_relocate_tokenize {a b : String} (h : units a.toList = units b.toList) :
    ∃ f, tokenize b = (tokenize a).relocate f :=
  exists_relocate_tokens (map_value_tokenize h) (pairwise_toList_tokenize a)

/-- **Layout does not matter.** Two texts with the same units have the same tokens up
to positions. Compiling them gives the same script, or errors that differ at most in
their places, which are those of the same token in both texts. -/
theorem compile_of_units_eq {a b : String} (h : units a.toList = units b.toList) (sink : Sink) :
    (tokenize a).toList.map Located.value = (tokenize b).toList.map Located.value ∧
      ((∃ script, compile sink a = .ok script ∧ compile sink b = .ok script) ∨
        ∃ e e', compile sink a = .error e ∧ compile sink b = .error e' ∧ e.erase = e'.erase ∧
          ∃ (i : Nat) (t u : Located Token),
            (tokenize a).toList[i]? = some t ∧ (tokenize b).toList[i]? = some u ∧
            e.position? = some t.position ∧ e'.position? = some u.position) := by
  refine ⟨map_value_tokenize h, ?_⟩
  obtain ⟨f, hf⟩ := exists_relocate_tokenize h
  have hcompile := compile_relocate hf sink
  cases hresult : compile sink a with
  | ok script =>
      rw [hresult] at hcompile
      exact .inl ⟨script, rfl, hcompile⟩
  | error e =>
      rw [hresult] at hcompile
      obtain ⟨t, ht, hposition⟩ := exists_token_of_compile hresult
      obtain ⟨i, hi⟩ := List.mem_iff_getElem?.mp ht
      have hlist : (tokenize b).toList = (tokenize a).toList.map (Located.relocate f) := by
        rw [hf, Tokens.toList, Tokens.toList, List.map_append]
        rfl
      refine .inr ⟨e, e.relocate f, rfl, hcompile, (CompileError.erase_relocate f e).symm,
        i, t, t.relocate f, hi, ?_, hposition, ?_⟩
      · rw [hlist, List.getElem?_map, hi]
        rfl
      · rw [CompileError.position?_relocate, hposition]
        rfl

/-- A quotation over two lines, and a call of a name that is not bound: the error is
reported at the name in both texts. -/
theorem compile_of_units_eq_call :
    units "📢 📋 🍉 🍇 📋 🍉 🫑 🍴".toList = units "📢\t📋 🍉\r\n🍇 📋\n\n🍉 🫑 🍴\n".toList ∧
      ∃ e, compile .plain "📢 📋 🍉 🍇 📋 🍉 🫑 🍴" =
          .error (.generate (.unresolvedReference "🍉" ⟨1, 11⟩)) ∧
        compile .plain "📢\t📋 🍉\r\n🍇 📋\n\n🍉 🫑 🍴\n" = .error e ∧
        e.erase = .generate (.unresolvedReference "🍉" .start) := by
  have hunits : units "📢 📋 🍉 🍇 📋 🍉 🫑 🍴".toList =
      units "📢\t📋 🍉\r\n🍇 📋\n\n🍉 🫑 🍴\n".toList := by decide +kernel
  have hcompile : compile .plain "📢 📋 🍉 🍇 📋 🍉 🫑 🍴" =
      .error (.generate (.unresolvedReference "🍉" ⟨1, 11⟩)) := by decide +kernel
  refine ⟨hunits, ?_⟩
  rcases (compile_of_units_eq hunits .plain).2 with ⟨script, ha, -⟩ | ⟨e, e', ha, hb, herase, -⟩
  · rw [hcompile] at ha
    cases ha
  · rw [hcompile] at ha
    cases ha
    exact ⟨e', hcompile, hb, herase.symm⟩

end Pictoscript
