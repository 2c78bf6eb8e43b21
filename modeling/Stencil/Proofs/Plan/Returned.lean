import Mathlib
import Stencil.Engine.Run

/-!
# What lambdas return

A lambda may return a value that is not there yet. It is awaited, and what it becomes in the end
stands for it. The elements of a list that is returned are not awaited: one that is pending shows
nothing, even where it is there to be had.
-/

namespace Stencil

variable {host : Host} {ready : PendingId → Bool}

namespace Value

/-- Behind so many layers of pending values, which are ready and succeed, stands another value. -/
inductive Yields (host : Host) (ready : PendingId → Bool) : Nat → Value → Value → Prop
  | self {v : Value} : Yields host ready 0 v v
  | layer {id : PendingId} {layers : Nat} {next v : Value} (hr : ready id = true)
    (hv : (host.pending id).result = .ok next) (h : Yields host ready layers next v) :
    Yields host ready (layers + 1) (.pending id) v

mutual
/-- A value with null for each pending value that can be reached through lists. -/
def blanked : Value → Value
  | .pending _ => .null
  | .list items => .list (allBlanked items)
  | v => v

def allBlanked : List Value → List Value
  | [] => []
  | v :: vs => blanked v :: allBlanked vs
end

mutual
theorem output_blanked : (v : Value) → v.blanked.output = v.output
  | .list items => by simp only [blanked, output, outputs_allBlanked items]
  | .null | .bool _ | .number _ | .string _ | .map _ | .lambda _ | .pending _ => rfl

theorem outputs_allBlanked : (vs : List Value) → outputs (allBlanked vs) = outputs vs
  | [] => rfl
  | v :: vs => by simp only [allBlanked, outputs, output_blanked v, outputs_allBlanked vs]
end

end Value

namespace Plan

variable {α β : Type}

/-- A plan is another one behind values that are ready and succeed. -/
inductive Past (host : Host) (ready : PendingId → Bool) : Plan α → Plan α → Prop
  | self {plan : Plan α} : Past host ready plan plan
  | await {id : PendingId} {v : Value} {next : Value → Plan α} {plan : Plan α} (hr : ready id = true)
    (hv : (host.pending id).result = .ok v) (h : Past host ready (next v) plan) :
    Past host ready (.await id next) plan

theorem Past.bind {plan rest : Plan β} (h : Past host ready plan rest) (f : β → Plan α) :
    Past host ready (plan.bind f) (rest.bind f) := by
  induction h with
  | self => exact .self
  | await hr hv _ ih => exact .await hr hv ih

end Plan

theorem Value.Yields.past_settle {layers : Nat} {returned v : Value}
    (h : returned.Yields host ready layers v) (fuel : Nat) :
    (returned.settle (layers + fuel)).Past host ready (v.settle fuel) := by
  induction h with
  | self =>
    rw [Nat.zero_add]
    exact .self
  | layer hr hv _ ih =>
    rw [Nat.add_right_comm]
    exact .await hr hv ih

theorem Value.kind_blanked_ne {v : Value} (h : v.kind ≠ .pending) : v.blanked.kind ≠ .pending := by
  cases v with
  | pending id => exact absurd rfl h
  | _ => nofun

/-- What becomes of a value once it is there: so it does for all that yields the value. -/
theorem Value.Yields.past {α : Type} {layers fuel : Nat} {returned v : Value}
    (h : returned.Yields host ready layers v) (hl : layers ≤ fuel) (hv : v.kind ≠ .pending)
    {f : Value → Plan α} (hf : f v = f v.blanked) :
    ((returned.settle fuel).bind f).Past host ready ((v.settle fuel).bind f) ∧
      (v.settle fuel).bind f = (v.blanked.settle fuel).bind f := by
  have hpast := (h.past_settle (fuel - layers)).bind f
  rw [Nat.add_sub_cancel' hl, settle_of_kind_ne hv] at hpast
  rw [settle_of_kind_ne hv, settle_of_kind_ne (kind_blanked_ne hv)]
  exact ⟨hpast, hf⟩

namespace Render

variable {fuel : Nat} {setting : Setting} {expand : Expand} {context : Context}

/-- Where a lambda stands in the place of an interpolation or of a section, the plan is to call it and
to go on with what it returns. This goes on as with the value that stands behind it, and as if the
pending values in the lists of that value were null. -/
theorem returned_past (host : Host) (ready : PendingId → Bool) (id : LambdaId)
    (children : Context → Plan Text) (raw : Thunk Text) (tags : Tags) :
    (∃ next : Value → Plan (Option Text),
      interpolated fuel setting expand context (some (.lambda (.inline id))) = .callInline id next ∧
      ∀ layers returned v, returned.Yields host ready layers v → layers ≤ fuel → v.kind ≠ .pending →
        (next returned).Past host ready (next v) ∧ next v = next v.blanked) ∧
    ∃ next : Value → Plan Text,
      shown fuel expand children raw tags context (.lambda (.block id)) =
        .callBlock id ⟨raw.get, context.view, tags⟩ (fun reply =>
          (answered (expand · tags context) reply).bind next) ∧
      ∀ layers returned v, returned.Yields host ready layers v → layers ≤ fuel → v.kind ≠ .pending →
        (next returned).Past host ready (next v) ∧ next v = next v.blanked := by
  refine ⟨⟨_, rfl, fun layers returned v h hl hv => ?_⟩, _, rfl, fun layers returned v h hl hv => ?_⟩
  · refine h.past hl hv ?_
    cases v with
    | list items => simp only [Value.blanked, ← Value.output_blanked (.list items)]
    | pending => exact absurd rfl hv
    | _ => rfl
  · refine h.past hl hv ?_
    rw [Value.output_blanked]

end Render

namespace Engine

/-- A value that is there at once, and a lambda that returns a list of these items. -/
def returnsItems (items : List Value) : Host where
  pending _ := ⟨.ok (.string ['a']), false⟩
  inline _ _ := .list items
  block _ _ _ := .value .null

def lambdaShown : Request where
  template := .string "{{l}}".toList
  view := .map [(['l'], .lambda (.inline 0))]
  partials := .empty
  tags := none
  escape := none

/-- An element that is pending shows nothing, though it is there at once; what it becomes shows. -/
theorem returned_pendingElement :
    ((new default).run (returnsItems [.pending 0, .string ['b']]) 2 [.start lambdaShown]).statuses =
        [.finished (.ok [',', 'b'])] ∧
      ((new default).run (returnsItems [.string ['a'], .string ['b']]) 2
        [.start lambdaShown]).statuses = [.finished (.ok ['a', ',', 'b'])] :=
  ⟨by cbv, by cbv⟩

end Engine
end Stencil
