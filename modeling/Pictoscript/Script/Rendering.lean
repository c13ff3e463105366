import Pictoscript.SemanticError
import Pictoscript.Tree

/-! # Rendering steps

A `Rendering` works on the scopes and ends in a value or an error. The scopes
come out in both cases, so that a block is left also when its body fails.
-/

namespace Pictoscript

def Rendering (α : Type) : Type := Scopes → Except SemanticError α × Scopes

namespace Rendering

variable {α β : Type}

protected def pure (a : α) : Rendering α := fun s => (.ok a, s)

protected def bind (r : Rendering α) (f : α → Rendering β) : Rendering β := fun s =>
  match r s with
  | (.ok a, s') => f a s'
  | (.error e, s') => (.error e, s')

instance : Monad Rendering where
  pure := Rendering.pure
  bind := Rendering.bind

def fail (e : SemanticError) : Rendering α := fun s => (.error e, s)

/-- Takes over a result that needs no scopes. -/
def ofExcept : Except SemanticError α → Rendering α := fun result s => (result, s)

theorem pure_apply (a : α) (s : Scopes) : (pure a : Rendering α) s = (.ok a, s) := rfl

theorem bind_apply (r : Rendering α) (f : α → Rendering β) (s : Scopes) :
    (r >>= f) s =
      match r s with
      | (.ok a, s') => f a s'
      | (.error e, s') => (.error e, s') := rfl

/-- A sequence succeeds when its first part does and then its second, on the
scopes that the first part left. -/
theorem bind_eq_ok_iff {r : Rendering α} {f : α → Rendering β} {s t : Scopes} {b : β} :
    (r >>= f) s = (.ok b, t) ↔ ∃ a s₁, r s = (.ok a, s₁) ∧ f a s₁ = (.ok b, t) := by
  rw [bind_apply]
  obtain ⟨result, s₁⟩ := r s
  cases result with
  | ok a => simp [and_assoc]
  | error e => simp

/-- A sequence fails when its first part does, or else its second. -/
theorem bind_eq_error_iff {r : Rendering α} {f : α → Rendering β} {s t : Scopes}
    {e : SemanticError} :
    (r >>= f) s = (.error e, t) ↔
      r s = (.error e, t) ∨ ∃ a s₁, r s = (.ok a, s₁) ∧ f a s₁ = (.error e, t) := by
  rw [bind_apply]
  obtain ⟨result, s₁⟩ := r s
  cases result with
  | ok a => simp [and_assoc]
  | error e => simp

def requireBound (name : Name) : Rendering Unit := fun s =>
  if (s.lookup name.text).isSome then (.ok (), s)
  else (.error (.unresolvedReference name.text name.position), s)

def requireFree (name : Name) : Rendering Unit := fun s =>
  if (s.lookup name.text).isSome then
    (.error (.duplicateDeclaration name.text name.position), s)
  else (.ok (), s)

def bindName (name : Name) (kind : Binding.Kind) (value : String) : Rendering Unit := fun s =>
  match s.define name.text ⟨kind, value⟩ with
  | (.ok (), s') => (.ok (), s')
  | (.error e, s') => (.error (.ofScope e name.position), s')

/-- Binds parameters, each to its own name. -/
def bindParameters : List Name → Rendering Unit
  | [] => pure ()
  | p :: ps => do
    bindName p .parameter p.text
    bindParameters ps

/-- Works in a block of its own, which is left whatever the result is. -/
def inBlock (r : Rendering α) : Rendering α := fun s =>
  match r s.enter with
  | (result, inner) =>
    match inner.leave with
    | (.ok (), s') => (result, s')
    | (.error _, s') => (.error .scopeUnderflow, s')

end Rendering

end Pictoscript
