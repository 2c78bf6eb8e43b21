import Stencil.Plan.Basic

/-!
# Settling

A value is settled before it is classified. In an interpolation the elements of lists are settled
too, at every depth; what stands inside maps is left alone.
-/

namespace Stencil
namespace Value

/-- Awaits a value until it is no longer pending; `fuel` bounds how many pending values yield each
other. -/
def settle : (fuel : Nat) → Value → Plan Value
  | 0, .pending _ => .exhausted
  | fuel + 1, .pending id => .await id (settle fuel)
  | _, v => .done v

theorem settle_of_kind_ne {v : Value} (h : v.kind ≠ .pending) (fuel : Nat) :
    v.settle fuel = .done v := by
  cases fuel <;> cases v <;> simp_all [settle, kind]

/-- Settles a value and every element of the lists inside it. Maps stay as they are. -/
def settleDeep : (fuel : Nat) → Value → Plan Value
  | 0, _ => .exhausted
  | fuel + 1, v => do
    match ← v.settle (fuel + 1) with
    | .list items =>
      if items.all isSettled then pure (.list items)
      else return .list (← Plan.each items (settleDeep fuel))
    | v => pure v

end Value
end Stencil
