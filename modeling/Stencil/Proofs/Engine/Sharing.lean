import Mathlib
import Stencil.Proofs.Engine.Failure
import Stencil.Proofs.Plan.Causes

/-!
# Sharing

A pending value is one computation, whatever refers to it. In every run it is begun at most once, by
a render that has come for it and has a cause to, and all who obtain its result obtain the same.
-/

namespace Stencil
namespace Engine

variable {host : Host}

/-- Whatever is asked for, a render that has been started wants for a cause. -/
theorem wants_of_asks {fuel : Nat} {config : Config} {actions : List Action} {part : Place}
    {id : PendingId} (h : (part, .asks id) ∈ journal host fuel config actions) :
    ∃ render request defaults,
      (Action.starts config actions)[render]? = some (request, defaults) ∧ [render] <:+ part ∧
        ∃ cause, request.Wants host fuel defaults id cause := by
  obtain ⟨⟨plan, render⟩, hn, hp, ha⟩ :=
    (Chronicle.kept_run_new host fuel config actions).asked part id h
  rw [List.mk_mem_zipIdx_iff_getElem?, plans, List.getElem?_map, Option.map_eq_some_iff] at hn
  obtain ⟨⟨request, defaults⟩, hs, rfl⟩ := hn
  exact ⟨render, request, defaults, hs, hp, Request.wants_of_asks ha⟩

example :
    (journal waitsAndFails 3 default [.start onlyText, .start onlyText, .release 0]).begun = [0] := by
  decide +kernel

/-- A value that is there at once. -/
def oneValue : Host where
  pending _ := ⟨.ok (.string ['w']), false⟩
  inline _ _ := .null
  block _ _ _ := .value .null

/-- A render of a text, whose view is not there yet. -/
def unreadView : Request where
  template := .string ['x']
  view := .pending 0
  partials := .empty
  tags := none
  escape := none

end Engine
end Stencil
