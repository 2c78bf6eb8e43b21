import Stencil.KeyPath
import Stencil.Value.Settle

/-!
# Contexts

The views around a place in a template, innermost first. The first key of a path is looked up
outward through them; every further key only inside the value found so far. Pending values met on
the way are settled, and nothing else is.
-/

namespace Stencil

/-- The innermost view and the views around it, from the inside out. -/
structure Context where
  view : Value
  outer : List Value

namespace Context

def root (view : Value) : Context :=
  ⟨view, []⟩

def push (context : Context) (view : Value) : Context :=
  ⟨view, context.view :: context.outer⟩

def views (context : Context) : List Value :=
  context.view :: context.outer

@[simp] theorem views_push (context : Context) (view : Value) :
    (context.push view).views = view :: context.views := rfl

/-- The value of a key in the innermost view that has it. -/
def find? (context : Context) (key : Text) : Option Value :=
  context.views.findSome? (Value.get? key)

theorem find?_push (context : Context) (view : Value) (key : Text) :
    (context.push view).find? key = (view.get? key).or (context.find? key) := by
  cases h : view.get? key <;> simp [find?, h]

/-- Looks the remaining keys up, each strictly inside the value of the one before. -/
def descend (fuel : Nat) : List Text → Value → Plan (Option Value)
  | [], v => pure (some v)
  | key :: keys, v =>
    match v.get? key with
    | none => pure none
    | some next => do descend fuel keys (← next.settle fuel)

def lookup (fuel : Nat) (context : Context) : KeyPath → Plan (Option Value)
  | .implicit => pure (some context.view)
  | .keys [] => pure none
  | .keys (key :: keys) =>
    match context.find? key with
    | none => pure none
    | some found => do descend fuel keys (← found.settle fuel)

end Context
end Stencil
