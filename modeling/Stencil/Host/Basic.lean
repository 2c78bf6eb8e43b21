import Stencil.Error
import Stencil.Value.Basic

/-!
# Hosts

A host gives the handles in a view their meaning: what a pending value becomes, and what a lambda
returns. A lambda may answer differently on each call, so it is told how many calls came before.
-/

namespace Stencil

/-- What a pending value becomes. A manual one waits until it is released; any other is ready at
once. -/
structure Supply where
  result : Except Error Value
  manual : Bool

/-- What a section hands to its lambda: its source between the tags, the innermost view and the pair
in effect at its opening tag. -/
structure BlockCall where
  raw : Text
  view : Value
  tags : Tags

/-- What the lambda of a section answers: a value, or a text to render first in the place of the
section. -/
inductive Answer
  | value (value : Value)
  | render (source : Text) (next : Text → Answer)

structure Host where
  pending : PendingId → Supply
  inline : LambdaId → (earlier : Nat) → Value
  block : LambdaId → (earlier : Nat) → BlockCall → Answer

namespace Host

/-- Every lambda answers the same at each call. -/
def Pure (host : Host) : Prop :=
  (∀ id m n, host.inline id m = host.inline id n) ∧
    ∀ id m n call, host.block id m call = host.block id n call

end Host
end Stencil
