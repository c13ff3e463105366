import Mathlib.Data.Finmap
import Pictoscript.Scopes

/-! # Scopes as a stack of maps

The scopes keep their bindings in the order in which they were made, and every frame
keeps a level of its own. Their users see neither: to them the scopes are a stack of
finite maps from names to bindings, whose level is its height less one. This stack is
described here on its own, with maps for which only the binding of each name counts,
and is compared with the scopes over all sequences of steps. What carries the comparison
is that a frame agrees with its map and that its level is the number of frames below it.

It follows that a block leaves no trace: once it is left, all that follows is
answered as if it had never been entered.
-/

namespace Pictoscript

namespace Scopes

/-! ## Steps -/

inductive Step where
  | enter
  | leave
  | define (name : String) (binding : Binding)
  | lookup (name : String) (currentOnly : Bool)

inductive Reply where
  | done
  | refused (error : ScopeError)
  | found (binding : Option Binding)
deriving DecidableEq

/-- The replies to steps, each with the level after the step. -/
def trace {σ : Type} (step : σ → Step → Reply × σ) (level : σ → Nat) :
    σ → List Step → List (Reply × Nat)
  | _, [] => []
  | s, a :: steps =>
    ((step s a).1, level (step s a).2) :: trace step level (step s a).2 steps

def Reply.ofResult : Except ScopeError Unit → Reply
  | .ok () => .done
  | .error e => .refused e

def step (s : Scopes) : Step → Reply × Scopes
  | .enter => (.done, s.enter)
  | .leave => s.leave.map Reply.ofResult id
  | .define name b => (s.define name b).map Reply.ofResult id
  | .lookup name true => (.found (s.lookupCurrent name), s)
  | .lookup name false => (.found (s.lookup name), s)

def after (s : Scopes) (steps : List Step) : Scopes := steps.foldl (fun t a => (t.step a).2) s

theorem after_append (s : Scopes) (steps more : List Step) :
    s.after (steps ++ more) = (s.after steps).after more := List.foldl_append

theorem leave_of_error {s : Scopes} {e : ScopeError} (h : s.leave.1 = .error e) :
    s.leave.2 = s := by
  unfold leave at h ⊢
  split
  · rfl
  · next hframes => simp [hframes] at h

theorem define_of_error {s : Scopes} {name : String} {b : Binding} {e : ScopeError}
    (h : (s.define name b).1 = .error e) : (s.define name b).2 = s := by
  unfold define at h ⊢
  by_cases htaken : (s.lookupCurrent name).isSome = true
  · rw [if_pos htaken]
  · rw [if_neg htaken] at h
    cases h

theorem Reply.eq_error_of_ofResult {r : Except ScopeError Unit} {e : ScopeError}
    (h : Reply.ofResult r = .refused e) : r = .error e := by
  cases r with
  | ok u => cases h
  | error e' =>
      cases h
      rfl

/-- A step that is refused leaves the scopes as they were. -/
theorem step_of_refused {s : Scopes} {a : Step} {e : ScopeError}
    (h : (s.step a).1 = .refused e) : (s.step a).2 = s := by
  cases a with
  | enter => cases h
  | leave => exact leave_of_error (Reply.eq_error_of_ofResult h)
  | define name b => exact define_of_error (Reply.eq_error_of_ofResult h)
  | lookup name currentOnly => cases currentOnly <;> cases h

/-! ## The stack -/

/-- The bindings of a block, without their order. -/
abbrev Bindings : Type := Finmap fun _ : String => Binding

/-- One map for each open block, the innermost first. The map of the whole program
is always there. -/
structure Stack where
  maps : List Bindings
  nonempty : maps ≠ []

namespace Stack

def global : Stack := ⟨[∅], by simp⟩

def level (m : Stack) : Nat := m.maps.length - 1

def top (m : Stack) : Bindings := m.maps.head m.nonempty

def push (m : Stack) : Stack := ⟨∅ :: m.maps, by simp⟩

def pop (m : Stack) : Reply × Stack :=
  if only : m.maps.tail = [] then (.refused .exitGlobal, m) else (.done, ⟨m.maps.tail, only⟩)

def define (m : Stack) (name : String) (b : Binding) : Reply × Stack :=
  if name ∈ m.top then (.refused (.alreadyDefined name), m)
  else (.done, ⟨m.top.insert name b :: m.maps.tail, by simp⟩)

def lookup (m : Stack) (name : String) : Option Binding :=
  (m.maps.find? fun map => name ∈ map).bind (Finmap.lookup name)

def step (m : Stack) : Step → Reply × Stack
  | .enter => (.done, m.push)
  | .leave => m.pop
  | .define name b => m.define name b
  | .lookup name true => (.found (m.top.lookup name), m)
  | .lookup name false => (.found (m.lookup name), m)

end Stack

/-! ## The scopes refine the stack -/

/-- A frame and a map bind the same names to the same bindings. -/
def SameBindings (frame : Frame) (map : Bindings) : Prop :=
  ∀ name, frame.lookup name = map.lookup name

/-- The frames and the maps agree one by one, and each frame has the number of frames
below it as its level. -/
inductive Agree : List Frame → List Bindings → Prop where
  | nil : Agree [] []
  | cons {frame : Frame} {map : Bindings} {frames : List Frame} {maps : List Bindings} :
      SameBindings frame map → frame.level = frames.length → Agree frames maps →
        Agree (frame :: frames) (map :: maps)

def Refines (s : Scopes) (m : Stack) : Prop := Agree (s.current :: s.outer) m.maps

theorem sameBindings_empty (level : Nat) : SameBindings ⟨level, []⟩ ∅ := by
  intro name
  rw [Finmap.lookup_empty]
  rfl

theorem SameBindings.mem_iff {frame : Frame} {map : Bindings} (h : SameBindings frame map)
    (name : String) : (frame.lookup name).isSome = true ↔ name ∈ map := by
  rw [h name, Finmap.lookup_isSome]

theorem SameBindings.insert {frame : Frame} {map : Bindings} (h : SameBindings frame map)
    {name : String} (hnew : name ∉ map) (b : Binding) :
    SameBindings { frame with bindings := frame.bindings ++ [(name, b)] }
      (map.insert name b) := by
  intro x
  have hframe : frame.bindings.lookup x = map.lookup x := h x
  rw [Frame.lookup, List.lookup_append, hframe]
  by_cases hx : x = name
  · subst hx
    rw [Finmap.lookup_eq_none.mpr hnew, Finmap.lookup_insert]
    simp
  · have hother : List.lookup x [(name, b)] = none := by simp [hx]
    rw [Finmap.lookup_insert_of_ne map hx, hother, Option.or_none]

section

variable {frames : List Frame} {maps : List Bindings}

theorem Agree.length_eq (h : Agree frames maps) : frames.length = maps.length := by
  induction h with
  | nil => rfl
  | cons _ _ _ ih => rw [List.length_cons, List.length_cons, ih]

theorem Agree.findSome?_eq (h : Agree frames maps) (name : String) :
    (frames.findSome? fun frame => frame.lookup name) =
      (maps.find? fun map => name ∈ map).bind (Finmap.lookup name) := by
  induction h with
  | nil => rfl
  | @cons frame map frames maps hframe _ _ ih =>
      rw [List.findSome?_cons, List.find?_cons, hframe name]
      by_cases hmem : name ∈ map
      · obtain ⟨b, hb⟩ := Finmap.mem_iff.mp hmem
        simp [hmem, hb]
      · rw [Finmap.lookup_eq_none.mpr hmem]
        simpa [hmem] using ih

end

theorem Refines.global : Refines Scopes.global Stack.global :=
  .cons (sameBindings_empty 0) rfl .nil

variable {s : Scopes} {m : Stack}

/-- The stack, taken apart as the scopes are. -/
theorem Refines.top (h : Refines s m) :
    SameBindings s.current m.top ∧ s.current.level = s.outer.length ∧
      Agree s.outer m.maps.tail := by
  obtain ⟨maps, hne⟩ := m
  unfold Refines at h
  cases h with
  | cons hcurrent hlevel houter => exact ⟨hcurrent, hlevel, houter⟩

theorem Refines.level (h : Refines s m) : s.level = m.level := by
  obtain ⟨-, hlevel, -⟩ := h.top
  have hlength := h.length_eq
  rw [List.length_cons] at hlength
  unfold Scopes.level Stack.level
  omega

theorem Refines.enter (h : Refines s m) : Refines s.enter m.push := by
  obtain ⟨-, hlevel, -⟩ := h.top
  refine .cons (sameBindings_empty _) ?_ h
  show s.current.level + 1 = s.outer.length + 1
  rw [hlevel]

theorem Refines.leave (h : Refines s m) :
    Reply.ofResult s.leave.1 = m.pop.1 ∧ Refines s.leave.2 m.pop.2 := by
  obtain ⟨-, -, houter⟩ := h.top
  unfold Scopes.leave Stack.pop
  cases hframes : s.outer with
  | nil =>
      rw [hframes] at houter
      have honly : m.maps.tail = [] := by
        generalize m.maps.tail = maps at houter
        cases houter
        rfl
      rw [dif_pos honly]
      exact ⟨rfl, h⟩
  | cons frame frames =>
      rw [hframes] at houter
      have hmore : m.maps.tail ≠ [] := by
        intro honly
        rw [honly] at houter
        cases houter
      rw [dif_neg hmore]
      exact ⟨rfl, houter⟩

theorem Refines.define (h : Refines s m) (name : String) (b : Binding) :
    Reply.ofResult (s.define name b).1 = (m.define name b).1 ∧
      Refines (s.define name b).2 (m.define name b).2 := by
  obtain ⟨hcurrent, hlevel, houter⟩ := h.top
  have hmem : (s.lookupCurrent name).isSome = true ↔ name ∈ m.top := hcurrent.mem_iff name
  unfold Scopes.define Stack.define
  by_cases htaken : name ∈ m.top
  · rw [if_pos (hmem.mpr htaken), if_pos htaken]
    exact ⟨rfl, h⟩
  · rw [if_neg (mt hmem.mp htaken), if_neg htaken]
    exact ⟨rfl, .cons (hcurrent.insert htaken b) hlevel houter⟩

/-- One step: the replies agree, and so do the states after it. -/
theorem Refines.step (h : Refines s m) (a : Step) :
    (s.step a).1 = (m.step a).1 ∧ Refines (s.step a).2 (m.step a).2 := by
  cases a with
  | enter => exact ⟨rfl, h.enter⟩
  | leave => exact h.leave
  | define name b => exact h.define name b
  | lookup name currentOnly =>
      cases currentOnly with
      | true => exact ⟨congrArg Reply.found (h.top.1 name), h⟩
      | false => exact ⟨congrArg Reply.found (h.findSome?_eq name), h⟩

/-- All steps. -/
theorem Refines.trace (h : Refines s m) (steps : List Step) :
    Scopes.trace Scopes.step Scopes.level s steps =
      Scopes.trace Stack.step Stack.level m steps := by
  induction steps generalizing s m with
  | nil => rfl
  | cons a steps ih =>
      obtain ⟨hreply, hafter⟩ := h.step a
      rw [Scopes.trace, Scopes.trace, hreply, hafter.level, ih hafter]

/-! ## Blocks leave no trace -/

/-- How many blocks are open after steps that begin with `depth` open blocks, if the
steps leave none but those. -/
def depthAfter : (depth : Nat) → List Step → Option Nat
  | depth, [] => some depth
  | depth, .enter :: steps => depthAfter (depth + 1) steps
  | 0, .leave :: _ => none
  | depth + 1, .leave :: steps => depthAfter depth steps
  | depth, _ :: steps => depthAfter depth steps

/-- The steps leave just the blocks that they enter. -/
def Balanced (steps : List Step) : Prop := depthAfter 0 steps = some 0

instance (steps : List Step) : Decidable (Balanced steps) := inferInstanceAs (Decidable (_ = _))

def block (body : List Step) : List Step := .enter :: (body ++ [.leave])

theorem outer_step_define (s : Scopes) (name : String) (b : Binding) :
    (s.step (.define name b)).2.outer = s.outer := by
  show (s.define name b).2.outer = s.outer
  unfold define
  split
  · rfl
  · rfl

theorem outer_step_lookup (s : Scopes) (name : String) (currentOnly : Bool) :
    (s.step (.lookup name currentOnly)).2.outer = s.outer := by
  cases currentOnly <;> rfl

/-- The frames below those of the open blocks are not touched. -/
theorem outer_after {steps : List Step} {depth final : Nat} {opened base : List Frame}
    (houter : s.outer = opened ++ base) (hdepth : opened.length = depth)
    (h : depthAfter depth steps = some final) :
    ∃ opened' : List Frame, (s.after steps).outer = opened' ++ base ∧
      opened'.length = final := by
  induction steps generalizing s depth opened with
  | nil =>
      cases h
      exact ⟨opened, houter, hdepth⟩
  | cons a steps ih =>
      cases a with
      | enter =>
          have hentered : s.enter.outer = (s.current :: opened) ++ base := by
            rw [enter, houter]
            rfl
          exact ih hentered (by simp [hdepth]) h
      | leave =>
          cases opened with
          | nil =>
              cases hdepth
              cases h
          | cons frame opened =>
              cases hdepth
              have hleft : (s.step .leave).2.outer = opened ++ base := by
                show s.leave.2.outer = opened ++ base
                rw [leave, houter]
                rfl
              exact ih hleft rfl h
      | define name b =>
          refine ih ((outer_step_define s name b).trans houter) hdepth ?_
          cases depth <;> exact h
      | lookup name currentOnly =>
          refine ih ((outer_step_lookup s name currentOnly).trans houter) hdepth ?_
          cases depth <;> exact h

theorem after_block {body : List Step} (h : Balanced body) (s : Scopes) :
    s.after (block body) = s := by
  have hentered : s.enter.outer = [] ++ (s.current :: s.outer) := rfl
  obtain ⟨opened, houter, hlength⟩ := outer_after hentered rfl h
  rw [List.length_eq_zero_iff.mp hlength, List.nil_append] at houter
  have hsplit : s.after (block body) = (s.enter.after body).leave.2 := by
    rw [block, ← List.singleton_append, after_append, after_append]
    rfl
  rw [hsplit, leave, houter]

/-- **Scopes are a stack of finite maps.** Whatever the steps are, each is answered
as by the stack, with the same level after it, and a step that is refused leaves the
scopes as they were. So a block that is left again changes no later answer. -/
theorem refines_stack :
    (∀ steps, trace step level global steps = trace Stack.step Stack.level .global steps) ∧
      (∀ (s : Scopes) a e, (s.step a).1 = .refused e → (s.step a).2 = s) ∧
      ∀ before body later, Balanced body →
        trace step level (global.after (before ++ block body)) later =
          trace step level (global.after before) later := by
  refine ⟨?_, ?_, ?_⟩
  · intro steps
    exact Refines.global.trace steps
  · intro s a e h
    exact step_of_refused h
  · intro before body later hbody
    rw [after_append, after_block hbody]

/-- A block that binds a name anew, and leaves an inner block: behind it the name has
its old binding, and there is no further block to leave. -/
theorem refines_stack_shadowed :
    Balanced [.define "🍉" ⟨.parameter, "🍉"⟩, .enter, .lookup "🍉" false, .leave] ∧
      trace step level (global.after ([.define "🍉" ⟨.variable, "1"⟩] ++
          block [.define "🍉" ⟨.parameter, "🍉"⟩, .enter, .lookup "🍉" false, .leave]))
        [.lookup "🍉" false, .leave, .define "🍉" ⟨.variable, "2"⟩] =
        [(.found (some ⟨.variable, "1"⟩), 0), (.refused .exitGlobal, 0),
          (.refused (.alreadyDefined "🍉"), 0)] := by
  have hbalanced :
      Balanced [.define "🍉" ⟨.parameter, "🍉"⟩, .enter, .lookup "🍉" false, .leave] := by
    decide
  refine ⟨hbalanced, ?_⟩
  rw [refines_stack.2.2 _ _ _ hbalanced]
  decide

end Scopes

end Pictoscript
