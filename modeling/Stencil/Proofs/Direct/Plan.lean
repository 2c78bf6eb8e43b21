import Mathlib.Data.List.FinRange
import Stencil.Proofs.Direct.Render

/-!
# Plans carried out in order

Each plan is also a computation that does one thing after the other, the members of a join in their
order. Carried out so, the plan of a render is the plain evaluator.
-/

namespace Stencil
namespace Plan

variable {α β : Type} {host : Host}

/-- Carries a plan out in order. -/
def direct (host : Host) : {α : Type} → Plan α → Direct α
  | _, .done result => pure result
  | _, .fail error => throw (.failed error)
  | _, .exhausted => throw .exhausted
  | _, .await id next => do (next (← Direct.await host id)).direct host
  | _, .callInline id next => do (next (← Direct.callInline host id)).direct host
  | _, .callBlock id call next => do (next (← Direct.callBlock host id call)).direct host
  | _, .compile source tags next => do (next (← Direct.compile source tags)).direct host
  | _, .join count members next => do
    let results ← (List.finRange count).mapM fun i => (members i).direct host
    (next results).direct host
  | _, .inner plan next => do (next (← plan.direct host)).direct host

@[simp] theorem direct_done (result : α) : (Plan.done result).direct host = pure result := rfl

@[simp] theorem direct_bind (plan : Plan α) (f : α → Plan β) :
    (plan.bind f).direct host = plan.direct host >>= fun a => (f a).direct host := by
  induction plan with
  | done | fail | exhausted => rfl
  | await _ _ ih | callInline _ _ ih | callBlock _ _ _ ih | compile _ _ _ ih =>
    simp only [bind, direct, ih, LawfulMonad.bind_assoc]
  | join _ _ _ _ ih | inner _ _ _ ih => simp only [bind, direct, ih, LawfulMonad.bind_assoc]

@[simp] theorem direct_map (plan : Plan α) (f : α → β) :
    (f <$> plan).direct host = f <$> plan.direct host := by
  rw [map_eq_pure_bind, map_eq_pure_bind, bind_eq, direct_bind]
  rfl

@[simp] theorem direct_each {ι : Type*} (items : List ι) (f : ι → Plan β) :
    (each items f).direct host = items.mapM fun item => (f item).direct host := by
  have hall : ((List.finRange items.length).map fun i => items[i]) = items :=
    List.map_getElem_finRange items
  calc (each items f).direct host
      = (List.finRange items.length).mapM fun i => (f items[i]).direct host := by
        simp [each, direct]
        rfl
    _ = ((List.finRange items.length).map fun i => items[i]).mapM
          fun item => (f item).direct host := by
        rw [List.mapM_map]
        rfl
    _ = items.mapM fun item => (f item).direct host := by rw [hall]

end Plan

open Plan

variable {host : Host}

namespace Value

theorem direct_settle (fuel : Nat) (v : Value) :
    (v.settle fuel).direct host = Direct.settle host fuel v := by
  induction fuel generalizing v with
  | zero => cases v <;> rfl
  | succ fuel ih =>
    cases v with
    | pending id => simp only [settle, direct, Direct.settle, ih]
    | _ => rfl

theorem direct_settleDeep (fuel : Nat) (v : Value) :
    (v.settleDeep fuel).direct host = Direct.settleDeep host fuel v := by
  induction fuel generalizing v with
  | zero => rfl
  | succ fuel ih =>
    simp only [settleDeep, bind_eq, direct_bind, direct_settle, Direct.settleDeep]
    congr 1
    funext settled
    cases settled with
    | list items =>
      by_cases hs : items.all isSettled = true
      · simp only [hs, if_true]
        rfl
      · simp only [hs]
        simp [ih]
    | _ => rfl

end Value

namespace Context

theorem direct_descend (fuel : Nat) (keys : List Text) (v : Value) :
    (descend fuel keys v).direct host = Direct.descend host fuel keys v := by
  induction keys generalizing v with
  | nil => rfl
  | cons key keys ih =>
    simp only [descend, Direct.descend]
    cases v.get? key with
    | none => rfl
    | some next => simp [ih, Value.direct_settle]

theorem direct_lookup (fuel : Nat) (context : Context) (path : KeyPath) :
    (context.lookup fuel path).direct host = Direct.lookup host fuel context path := by
  rcases path with _ | _ | ⟨key, keys⟩
  · rfl
  · rfl
  · simp only [lookup, Direct.lookup]
    cases context.find? key with
    | none => rfl
    | some found => simp [direct_descend, Value.direct_settle]

end Context

namespace Render

variable {fuel : Nat} {setting : Setting} {expand : Expand} {direct : Direct.Expand}

theorem direct_answer {expand : Text → Plan Text} {direct : Text → Direct Text}
    (h : ∀ source, (expand source).direct host = direct source) (reply : Answer) :
    (answer expand reply).direct host = Direct.answer direct reply := by
  induction reply with
  | value v => rfl
  | render source next ih => simp only [answer, direct_bind, h, ih, Direct.answer]

/-- What asks for texts is a computation of its own only to those who wait for it. -/
theorem direct_answered {expand : Text → Plan Text} {direct : Text → Direct Text}
    (h : ∀ source, (expand source).direct host = direct source) (reply : Answer) :
    (answered expand reply).direct host = Direct.answer direct reply := by
  cases reply with
  | value v => rfl
  | render source next =>
    simp [answered, Plan.direct, direct_answer h]

theorem direct_deciding (found : Option Value) :
    (deciding fuel found).direct host = Direct.deciding host fuel found := by
  rcases found with _ | v
  · rfl
  · cases v with
    | lambda called =>
      cases called with
      | inline id => simp [deciding, Direct.deciding, Plan.direct, Plan.bind, Value.direct_settle]
      | block id => rfl
    | _ => rfl

section Expanding
variable (h : ∀ source tags context,
  (expand source tags context).direct host = direct source tags context)
include h

/-- What stands in the place of an interpolation, written as its tag says. -/
theorem direct_interpolated (written : Text → Text) (context : Context) (found : Option Value) :
    ((interpolated fuel setting expand context found).bind fun
      | none => pure []
      | some t => pure (written t)).direct host =
    match found with
    | none | some .null | some (.lambda (.block _)) => pure []
    | some (.lambda (.inline id)) => do
      match ← Direct.settle host fuel (← Direct.callInline host id) with
      | .null => pure []
      | source => return written (← direct source.output setting.tags context)
    | some v => return written (← Direct.settleDeep host fuel v).output := by
  rcases found with _ | v
  · rfl
  · cases v with
    | null => rfl
    | lambda called =>
      cases called with
      | inline id =>
        simp [interpolated, Plan.direct, Plan.bind, Value.direct_settle]
        congr 1
        funext returned
        congr 1
        funext settled
        cases settled with
        | null => rfl
        | _ => simp [h]
      | block id => rfl
    | _ => simp [interpolated, Value.direct_settleDeep]

/-- The text of a section that is shown, from that of its children in a context. -/
theorem direct_shown {children : Context → Plan Text} {text : Context → Direct Text}
    (hchildren : ∀ context, (children context).direct host = text context) (raw : Thunk Text)
    (tags : Tags) (context : Context) (v : Value) :
    (shown fuel expand children raw tags context v).direct host =
      match v with
      | .list items =>
        return (← items.mapM fun v => do
          text (context.push (← Direct.settle host fuel v))).flatten
      | .map entries => text (context.push (.map entries))
      | .lambda (.block id) => do
        let reply ← Direct.callBlock host id ⟨raw.get, context.view, tags⟩
        let returned ← Direct.answer (direct · tags context) reply
        return (← Direct.settle host fuel returned).output
      | _ => text context := by
  cases v with
  | list items => simp [shown, Value.direct_settle, hchildren]
  | map entries => exact hchildren _
  | lambda called =>
    cases called with
    | inline id => exact hchildren context
    | block id =>
      simp [shown, Plan.direct, Plan.bind, Value.direct_settle]
      congr 1
      funext reply
      rw [direct_answered fun source => h source tags context]
  | _ => exact hchildren context

end Expanding

mutual
theorem direct_node (h : ∀ source tags context,
    (expand source tags context).direct host = direct source tags context) :
    (n : Node) → (context : Context) → (node fuel setting expand n context).direct host =
      Direct.node host fuel setting direct context n
  | .text t, _ => rfl
  | .comment _, _ => rfl
  | .interpolation path escape _, context => by
    simp only [node, Direct.node, bind_eq, direct_bind, Context.direct_lookup]
    congr 1
    funext found
    have hwritten := @direct_interpolated _ fuel setting _ _ h
      (fun t => if escape then setting.escape t else t) context found
    rw [direct_bind] at hwritten
    refine hwritten.trans ?_
    rcases found with _ | v
    · rfl
    · cases v with
      | lambda called => cases called <;> rfl
      | _ => rfl
  | .inclusion name indent _, context => by
    rw [node, Direct.node]
    cases setting.partials name with
    | none => rfl
    | some source => exact h _ _ _
  | .block path inverted children raw tags _, context => by
    have hchildren := direct_together h children
    simp only [node, Direct.node, bind_eq, direct_bind, Context.direct_lookup, direct_deciding]
    congr 1
    funext found
    congr 1
    funext value
    cases inverted with
    | true =>
      cases hshown : isShown value with
      | true => rfl
      | false => exact hchildren context
    | false =>
      rcases value with _ | v
      · rfl
      · cases hshown : v.isTruthy with
        | false => simp [isShown, hshown]
        | true =>
          simp only [isShown, hshown, if_true, Bool.false_eq_true, if_false, Bool.not_true]
          rw [direct_shown h hchildren]
          cases v with
          | lambda called => cases called <;> rfl
          | _ => rfl

theorem direct_together (h : ∀ source tags context,
    (expand source tags context).direct host = direct source tags context) :
    (ns : List Node) → (context : Context) → (together (nodes fuel setting expand ns) context).direct host =
      Direct.siblings host fuel setting direct context ns
  | [], _ => by simp [together, nodes, Direct.siblings]
  | n :: ns, context => by
    have hfirst := direct_node h n context
    have hrest := direct_together h ns context
    simp only [together, bind_eq, direct_bind, direct_each, nodes] at hrest ⊢
    rw [Direct.siblings, ← hfirst, ← hrest]
    simp
end

theorem direct_text (setting : Setting) (fuel : Nat) (ns : List Node) (context : Context) :
    (text setting fuel ns context).direct host = Direct.text host setting fuel ns context := by
  induction fuel generalizing ns context with
  | zero =>
    refine direct_together ?_ ns context
    exact fun _ _ _ => rfl
  | succ fuel ih =>
    refine direct_together ?_ ns context
    intro source tags context
    simp only [Plan.direct, ih]

end Render

/-- Carried out in order, a render is the plain evaluator. -/
theorem Request.direct_plan (fuel : Nat) (request : Request) (config : Config) :
    (request.plan fuel config).direct host = Direct.render host fuel request config := by
  rw [plan, Direct.render]
  cases request.template with
  | string source => simp [Plan.direct, Value.direct_settle, Render.direct_text]
  | _ => rfl

end Stencil
