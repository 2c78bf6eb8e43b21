import Stencil.Host.Basic

/-!
# Hosts from tables

A host given by finite tables: pending values by their results, lambdas by what they return. The
handle of an entry is its position. A handle past the end of its table means nothing: a pending
value that fails, or a lambda that returns null.
-/

namespace Stencil

/-- What the lambda of a section makes of its call. The texts named `before` and `after` go on
either side. -/
inductive Reply
  | raw (before after : Text)
  | upper
  | const (value : Value)
  | view
  | tags (before after : Text)
  /-- The section rendered in its place. -/
  | render (before after : Text)
  | renderText (text before after : Text)
  /-- The section rendered, and what that gives rendered again. -/
  | renderTwice (before after : Text)

namespace Reply

def wrap (before after t : Text) : Answer :=
  .value (.string (before ++ t ++ after))

def answer (call : BlockCall) : Reply → Answer
  | .raw before after => wrap before after call.raw
  | .upper => .value (.string (call.raw.map Char.toUpper))
  | .const v => .value v
  | .view => .value call.view
  | .tags before after => wrap before after call.tags.text
  | .render before after => .render call.raw (wrap before after)
  | .renderText text before after => .render text (wrap before after)
  | .renderTwice before after => .render call.raw fun t => .render t (wrap before after)

end Reply

structure HostTable where
  pending : Array Supply
  /-- The values that a lambda returns in turn. -/
  inline : Array (List Value)
  block : Array Reply

namespace HostTable

/-- The element whose turn it is, going round. -/
def turn (values : List Value) (earlier : Nat) : Value :=
  (values[earlier % values.length]?).getD .null

/-- A lambda with a single value always returns it. -/
@[simp] theorem turn_singleton (v : Value) (earlier : Nat) : turn [v] earlier = v := by
  simp [turn, Nat.mod_one]

def host (table : HostTable) : Host where
  pending id := (table.pending[id]?).getD ⟨.error (.valueFailed []), false⟩
  inline id earlier := turn ((table.inline[id]?).getD []) earlier
  block id _ call := ((table.block[id]?).getD (.const .null)).answer call

end HostTable
end Stencil
