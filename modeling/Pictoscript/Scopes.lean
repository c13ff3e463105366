/-! # Scopes

A stack of frames that says which names are bound. The frame of the whole
program lies at the bottom and is never left. Only a name of the innermost
frame cannot be bound again; a name of an outer frame may be shadowed.

Each frame carries its own level: a block is entered one level above the frame that
is current then, and the frame that comes back when the block is left has kept its
level. An operation that may be refused answers with the scopes after it either way.
-/

namespace Pictoscript

inductive Binding.Kind where
  | variable
  | function
  | parameter
deriving DecidableEq, Repr

/-- What a name is bound as, and the script text it was bound with. -/
structure Binding where
  kind : Binding.Kind
  value : String
deriving DecidableEq, Repr

/-- One block: its level, and its bindings in the order they were made. -/
structure Frame where
  level : Nat
  bindings : List (String × Binding)
deriving DecidableEq, Repr

def Frame.lookup (f : Frame) (name : String) : Option Binding := f.bindings.lookup name

def Frame.names (f : Frame) : List String := f.bindings.map Prod.fst

structure Scopes where
  current : Frame
  /-- The frames around the current one, innermost first. -/
  outer : List Frame
deriving DecidableEq, Repr

inductive ScopeError where
  | alreadyDefined (name : String)
  | exitGlobal
deriving DecidableEq, Repr

def ScopeError.message : ScopeError → String
  | .alreadyDefined name => s!"'{name}' is already defined in this scope"
  | .exitGlobal => "cannot exit the global scope"

namespace Scopes

def global : Scopes := ⟨⟨0, []⟩, []⟩

def level (s : Scopes) : Nat := s.current.level

def enter (s : Scopes) : Scopes := ⟨⟨s.current.level + 1, []⟩, s.current :: s.outer⟩

/-- Leaves a block and forgets what it bound. -/
def leave (s : Scopes) : Except ScopeError Unit × Scopes :=
  match s.outer with
  | [] => (.error .exitGlobal, s)
  | frame :: frames => (.ok (), ⟨frame, frames⟩)

def lookupCurrent (s : Scopes) (name : String) : Option Binding := s.current.lookup name

def lookup (s : Scopes) (name : String) : Option Binding :=
  (s.current :: s.outer).findSome? fun frame => frame.lookup name

def define (s : Scopes) (name : String) (b : Binding) : Except ScopeError Unit × Scopes :=
  if (s.lookupCurrent name).isSome then (.error (.alreadyDefined name), s)
  else
    let bindings := s.current.bindings ++ [(name, b)]
    (.ok (), { s with current := { s.current with bindings } })

@[simp] theorem leave_enter (s : Scopes) : s.enter.leave = (.ok (), s) := rfl

@[simp] theorem level_global : global.level = 0 := rfl

@[simp] theorem level_enter (s : Scopes) : s.enter.level = s.level + 1 := rfl

end Scopes

end Pictoscript
