import Pictoscript.Proofs.JavaScript.Subscripts
import Pictoscript.Proofs.Static.Semantics

/-! # How subscripts are folded into a list

A list is rendered member by member, each on the scopes that the members before it
left. A subscript is no member of its own in the script: its text goes behind the
last fragment, which has to be a value.

Folding loses and moves nothing. It is compared with rendering the list without its
subscripts: this has the same effect on the scopes and gives the same fragments, to
which the subscripts are added in place. All of it holds for every list, also of
shapes that no text spells, and for all scopes.
-/

namespace Pictoscript

namespace Folding

open Rendering Script Subscripts
open Static (receiver? receives receives_cons receives_false receivesFragment)

/-! ## Lists with subscripts -/

def carriers (ns : List Node) : List Node := ns.filter fun n => !n.isIndex

/-- For each member that is no subscript, the offsets of the subscripts right behind it. -/
def runs : List Node → List (List Nat)
  | [] => []
  | n :: ns => if n.isIndex then runs ns else offsets ns :: runs ns

/-- Every subscript belongs to a value: the nearest member before it that is no
subscript is one. -/
def Received (ns : List Node) : Prop :=
  ∀ before k p after, ns = before ++ .index k p :: after →
    (receiver? before).any Node.isValue = true

/-- The same behind something else, which may or may not be a value. -/
def ReceivedBehind (received : Bool) (ns : List Node) : Prop :=
  ∀ before k p after, ns = before ++ .index k p :: after → receives received before = true

variable {n : Node} {ns : List Node}

theorem received_iff : Received ns ↔ ReceivedBehind false ns := by
  simp only [Received, ReceivedBehind, receives_false]

theorem ReceivedBehind.tail {received : Bool} (h : ReceivedBehind received (n :: ns)) :
    ReceivedBehind (if n.isIndex then received else n.isValue) ns := by
  intro before k p after hns
  rw [← receives_cons]
  exact h (n :: before) k p after (by rw [hns, List.cons_append])

theorem ReceivedBehind.head {received : Bool} {k : Nat} {p : Position}
    (h : ReceivedBehind received (.index k p :: ns)) : received = true :=
  h [] k p ns rfl

theorem carriers_cons (h : n.isIndex = false) : carriers (n :: ns) = n :: carriers ns := by
  simp [carriers, h]

theorem runs_cons (h : n.isIndex = false) : runs (n :: ns) = offsets ns :: runs ns := by
  simp [runs, h]

theorem isIndex_of_mem_carriers (h : n ∈ carriers ns) : n.isIndex = false := by
  simpa using (List.mem_filter.mp h).2

theorem carriers_carriers (ns : List Node) : carriers (carriers ns) = carriers ns := by
  simp [carriers]

theorem length_runs (ns : List Node) : (runs ns).length = (carriers ns).length := by
  induction ns with
  | nil => rfl
  | cons n ns ih =>
      cases h : n.isIndex with
      | true => simpa [runs, carriers, h] using ih
      | false => rw [runs_cons h, carriers_cons h, List.length_cons, List.length_cons, ih]

/-! ## One member -/

variable {sink : Sink} {done fragments : List Fragment} {s t u : Scopes}

theorem members_index_of_isValue {k : Nat} {p : Position} {last : Fragment}
    (h : last.isValue = true) :
    members sink (last :: done) (.index k p :: ns) =
      members sink (⟨last.text ++ s!"[{k}]", true⟩ :: done) ns := by
  show (ofExcept (subscript k p (last :: done)) >>= fun done => members sink done ns) = _
  rw [subscript, if_pos h]
  rfl

theorem members_index_of_not_receives {k : Nat} {p : Position}
    (h : receivesFragment done = false) :
    members sink done (.index k p :: ns) = fail (.ofMisshape .indexWithoutValue p) := by
  cases done with
  | nil => rfl
  | cons last done =>
      have hvalue : last.isValue = false := h
      show (ofExcept (subscript k p (last :: done)) >>= fun done => members sink done ns) = _
      rw [subscript, hvalue]
      rfl

/-- A list is rendered one part after the other. -/
theorem members_append (before after : List Node) :
    members sink done (before ++ after) =
      members sink done before >>= fun done => members sink done after := by
  induction before generalizing done with
  | nil => rfl
  | cons n before ih =>
      cases h : n.isIndex with
      | true =>
          obtain ⟨k, p, rfl⟩ := isIndex_iff.mp h
          show (ofExcept (subscript k p done) >>= fun done => members sink done (before ++ after)) =
            (ofExcept (subscript k p done) >>= fun done => members sink done before) >>= _
          simp only [ih, bind_assoc]
      | false =>
          rw [List.cons_append, members_cons h, members_cons h, bind_assoc]
          simp only [ih]

/-! ## What holds of the fragments -/

theorem length_of_members (h : members sink done ns s = (.ok fragments, t)) :
    fragments.length = (carriers ns).length + done.length := by
  induction ns generalizing done s with
  | nil =>
      cases h
      simp [carriers]
  | cons n ns ih =>
      cases hindex : n.isIndex with
      | true =>
          obtain ⟨k, p, rfl⟩ := isIndex_iff.mp hindex
          obtain ⟨last, before, rfl, -, hrest⟩ := members_index h
          rw [ih hrest]
          rfl
      | false =>
          rw [members_cons hindex, bind_eq_ok_iff] at h
          obtain ⟨text, u, -, hrest⟩ := h
          rw [ih hrest, carriers_cons hindex, List.length_cons, List.length_cons]
          omega

/-- A subscript may follow the fragments just when it may follow the list. -/
theorem receivesFragment_of_members (h : members sink done ns s = (.ok fragments, t)) :
    receivesFragment fragments = receives (receivesFragment done) ns := by
  induction ns generalizing done s with
  | nil =>
      cases h
      rfl
  | cons n ns ih =>
      rw [receives_cons]
      cases hindex : n.isIndex with
      | true =>
          obtain ⟨k, p, rfl⟩ := isIndex_iff.mp hindex
          obtain ⟨last, before, rfl, hvalue, hrest⟩ := members_index h
          rw [ih hrest, if_pos rfl]
          simp [receivesFragment, hvalue]
      | false =>
          rw [members_cons hindex, bind_eq_ok_iff] at h
          obtain ⟨text, u, -, hrest⟩ := h
          rw [ih hrest, if_neg (by simp)]
          rfl

theorem receivesFragment_eq_any (h : members sink [] ns s = (.ok fragments, t)) :
    receivesFragment fragments = (receiver? ns).any Node.isValue := by
  rw [receivesFragment_of_members h]
  exact receives_false ns

/-- Rendering succeeds only if every subscript belongs to a value. -/
theorem receivedBehind_of_members (h : members sink done ns s = (.ok fragments, t)) :
    ReceivedBehind (receivesFragment done) ns := by
  rintro before k p after rfl
  rw [members_append, bind_eq_ok_iff] at h
  obtain ⟨fragments', u, hbefore, hrest⟩ := h
  obtain ⟨last, others, rfl, hvalue, -⟩ := members_index hrest
  rw [← receivesFragment_of_members hbefore]
  exact hvalue

/-! ## Folding -/

def fragment (sink : Sink) (n : Node) : Rendering Fragment := do
  let text ← Script.node sink n
  return ⟨text, n.isValue⟩

def subscripted (f : Fragment) (ks : List Nat) : Fragment := ⟨f.text ++ Js.brackets ks, f.isValue⟩

/-- If every subscript belongs to a value, rendering a list is rendering its other
members and then adding the subscripts, those at the front to what was there before. -/
theorem members_of_receivedBehind (h : ReceivedBehind (receivesFragment done) ns) :
    members sink done ns = (do
      let fragments ← (carriers ns).mapM (fragment sink)
      return (List.zipWith subscripted fragments (runs ns)).reverse ++
        extended (offsets ns) done) := by
  induction ns generalizing done with
  | nil => simp [members, carriers, runs, offsets, extended_nil]
  | cons n ns ih =>
      cases hindex : n.isIndex with
      | true =>
          obtain ⟨k, p, rfl⟩ := isIndex_iff.mp hindex
          have hreceived := h.head
          have htail := h.tail
          rw [hindex, if_pos rfl, hreceived] at htail
          cases done with
          | nil => cases hreceived
          | cons last before =>
              have hvalue : last.isValue = true := hreceived
              have hrest : members sink (⟨last.text ++ s!"[{k}]", true⟩ :: before) ns = _ := ih htail
              rw [members_index_of_isValue hvalue, hrest]
              simp [carriers, runs, hindex, offsets, extended, Js.brackets, hvalue,
                String.append_assoc]
      | false =>
          have htail := h.tail
          rw [hindex, if_neg (by simp)] at htail
          rw [members_cons hindex, carriers_cons hindex, runs_cons hindex, offsets_cons hindex,
            extended_nil]
          have hrest : ∀ text : String, members sink (⟨text, n.isValue⟩ :: done) ns = _ :=
            fun text => @ih (⟨text, n.isValue⟩ :: done) htail
          simp only [hrest]
          simp [List.mapM_cons, fragment, subscripted, extended]

theorem members_of_forall (h : ∀ n ∈ ns, n.isIndex = false) :
    members sink done ns = (do
      let fragments ← ns.mapM (fragment sink)
      return fragments.reverse ++ done) := by
  induction ns generalizing done with
  | nil => simp [members]
  | cons n ns ih =>
      obtain ⟨hn, hns⟩ := List.forall_mem_cons.mp h
      rw [members_cons hn]
      simp [ih hns, List.mapM_cons, fragment]

/-- A list whose subscripts belong to values, compared with its other members. -/
theorem members_of_received (h : Received ns) :
    members sink [] ns = (do
      let plain ← members sink [] (carriers ns)
      return (List.zipWith subscripted plain.reverse (runs ns)).reverse) := by
  have hbehind : ReceivedBehind (receivesFragment []) ns := received_iff.mp h
  rw [members_of_receivedBehind hbehind, members_of_forall fun _ hn => isIndex_of_mem_carriers hn]
  simp [extended]

theorem members_eq_ok_iff :
    members sink [] ns s = (.ok fragments, t) ↔
      Received ns ∧ ∃ plain, members sink [] (carriers ns) s = (.ok plain, t) ∧
        (List.zipWith subscripted plain.reverse (runs ns)).reverse = fragments := by
  constructor
  · intro h
    have hreceived : Received ns := received_iff.mpr (receivedBehind_of_members h)
    rw [members_of_received hreceived, map_eq_ok_iff] at h
    exact ⟨hreceived, h⟩
  · rintro ⟨hreceived, h⟩
    rw [members_of_received hreceived, map_eq_ok_iff]
    exact h

theorem texts_zipWith_subscripted (plain : List Fragment) (rs : List (List Nat)) :
    texts (List.zipWith subscripted plain.reverse rs).reverse =
      List.zipWith (fun text ks => text ++ Js.brackets ks) (texts plain) rs := by
  rw [texts, List.reverse_reverse, texts, List.map_zipWith, List.zipWith_map_left]
  rfl

theorem length_texts_of_members (h : members sink [] ns s = (.ok fragments, t)) :
    (texts fragments).length = (carriers ns).length := by
  rw [texts, List.length_map, List.length_reverse, length_of_members h]
  rfl

/-! ## Failure -/

variable {e : SemanticError}

/-- Rendering fails at the first member that fails behind those before it. -/
theorem members_eq_error_iff :
    members sink done ns s = (.error e, t) ↔
      ∃ before n after fragments u, ns = before ++ n :: after ∧
        members sink done before s = (.ok fragments, u) ∧
        members sink fragments [n] u = (.error e, t) := by
  constructor
  · intro h
    induction ns generalizing done s with
    | nil => cases h
    | cons n ns ih =>
        have hsplit : members sink done (n :: ns) = _ := members_append [n] ns
        rw [hsplit, bind_eq_error_iff] at h
        rcases h with h | ⟨fragments, u, hn, hns⟩
        · exact ⟨[], n, ns, done, s, rfl, rfl, h⟩
        · obtain ⟨before, m, after, fragments', v, rfl, hbefore, hm⟩ := ih hns
          refine ⟨n :: before, m, after, fragments', v, rfl, ?_, hm⟩
          have hsplit' : members sink done (n :: before) = _ := members_append [n] before
          rw [hsplit', bind_eq_ok_iff]
          exact ⟨fragments, u, hn, hbefore⟩
  · rintro ⟨before, n, after, fragments, u, rfl, hbefore, hn⟩
    have hsplit : members sink fragments (n :: after) = _ := members_append [n] after
    rw [members_append, bind_eq_error_iff]
    refine .inr ⟨fragments, u, hbefore, ?_⟩
    rw [hsplit, bind_eq_error_iff]
    exact .inl hn

/-- How one member fails: it is a subscript that nothing receives, or its own
rendering fails. -/
theorem members_singleton_eq_error_iff :
    members sink done [n] s = (.error e, t) ↔
      (∃ k p, n = .index k p ∧ receivesFragment done = false ∧
        e = .ofMisshape .indexWithoutValue p ∧ t = s) ∨
      n.isIndex = false ∧ Script.node sink n s = (.error e, t) := by
  cases hindex : n.isIndex with
  | true =>
      obtain ⟨k, p, rfl⟩ := isIndex_iff.mp hindex
      constructor
      · intro h
        cases hreceived : receivesFragment done with
        | false =>
            rw [members_index_of_not_receives hreceived] at h
            cases h
            exact .inl ⟨k, p, rfl, rfl, rfl, rfl⟩
        | true =>
            cases done with
            | nil => cases hreceived
            | cons last before =>
                rw [members_index_of_isValue hreceived] at h
                cases h
      · rintro (⟨k, p, ⟨⟩, hreceived, rfl, rfl⟩ | ⟨⟨⟩, -⟩)
        rw [members_index_of_not_receives hreceived]
        rfl
  | false =>
      rw [members_cons hindex, bind_eq_error_iff]
      constructor
      · rintro (h | ⟨text, u, -, hrest⟩)
        · exact .inr ⟨rfl, h⟩
        · cases hrest
      · rintro (⟨k, p, rfl, -⟩ | ⟨-, h⟩)
        · cases hindex
        · exact .inl h

/-- **Folding.** A list is rendered just when the list without its subscripts is and
each subscript belongs to a value. The scopes are then the same, and each member that
is no subscript has one fragment: its own text with the subscripts right behind it.
Otherwise the error is that of the first member that fails behind those before it,
which is a subscript that nothing receives or a member whose own rendering fails. -/
theorem members_fold (sink : Sink) (ns : List Node) (s : Scopes) :
    ((∃ fragments t, members sink [] ns s = (.ok fragments, t)) ↔
        (∃ plain t, members sink [] (carriers ns) s = (.ok plain, t)) ∧ Received ns) ∧
      (∀ fragments t, members sink [] ns s = (.ok fragments, t) →
        (texts fragments).length = (carriers ns).length ∧
        ∃ plain, members sink [] (carriers ns) s = (.ok plain, t) ∧
          (texts plain).length = (carriers ns).length ∧
          (runs ns).length = (carriers ns).length ∧
          texts fragments =
            List.zipWith (fun text ks => text ++ Js.brackets ks) (texts plain) (runs ns)) ∧
      ∀ e t, members sink [] ns s = (.error e, t) ↔
        ∃ before n after plain u, ns = before ++ n :: after ∧ Received before ∧
          members sink [] (carriers before) s = (.ok plain, u) ∧
          ((∃ k p, n = .index k p ∧ (receiver? before).any Node.isValue = false ∧
              e = .ofMisshape .indexWithoutValue p ∧ t = u) ∨
            n.isIndex = false ∧ Script.node sink n u = (.error e, t)) := by
  refine ⟨⟨?_, ?_⟩, ?_, ?_⟩
  · rintro ⟨fragments, t, h⟩
    obtain ⟨hreceived, plain, hplain, -⟩ := members_eq_ok_iff.mp h
    exact ⟨⟨plain, t, hplain⟩, hreceived⟩
  · rintro ⟨⟨plain, t, hplain⟩, hreceived⟩
    exact ⟨_, t, members_eq_ok_iff.mpr ⟨hreceived, plain, hplain, rfl⟩⟩
  · intro fragments t h
    obtain ⟨-, plain, hplain, rfl⟩ := members_eq_ok_iff.mp h
    have hlength := length_texts_of_members hplain
    rw [carriers_carriers] at hlength
    exact ⟨length_texts_of_members h, plain, hplain, hlength, length_runs ns,
      texts_zipWith_subscripted plain (runs ns)⟩
  · intro e t
    rw [members_eq_error_iff]
    constructor
    · rintro ⟨before, n, after, fragments, u, rfl, hbefore, hn⟩
      obtain ⟨hreceived, plain, hplain, -⟩ := members_eq_ok_iff.mp hbefore
      refine ⟨before, n, after, plain, u, rfl, hreceived, hplain, ?_⟩
      rw [← receivesFragment_eq_any hbefore]
      exact members_singleton_eq_error_iff.mp hn
    · rintro ⟨before, n, after, plain, u, rfl, hreceived, hplain, hn⟩
      have hbefore := members_eq_ok_iff.mpr ⟨hreceived, plain, hplain, rfl⟩
      refine ⟨before, n, after, _, u, rfl, hbefore, members_singleton_eq_error_iff.mpr ?_⟩
      rw [receivesFragment_eq_any hbefore]
      exact hn

end Folding

end Pictoscript
