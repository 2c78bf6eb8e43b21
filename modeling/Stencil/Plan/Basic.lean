import Stencil.Host.Basic
import Stencil.Node

/-!
# Plans

A plan is what is left of a computation over values that may not be there yet: a result, or the next
thing to ask for together with what follows each answer. Plans form a monad. Members of a join are
independent of each other; what follows gets their results in the order of the members.
-/

namespace Stencil

inductive Plan : Type → Type 1
  | done {α : Type} (result : α) : Plan α
  | fail {α : Type} (error : Error) : Plan α
  /-- The bound on nested work has been reached. -/
  | exhausted {α : Type} : Plan α
  | await {α : Type} (id : PendingId) (next : Value → Plan α) : Plan α
  | callInline {α : Type} (id : LambdaId) (next : Value → Plan α) : Plan α
  | callBlock {α : Type} (id : LambdaId) (call : BlockCall) (next : Answer → Plan α) : Plan α
  | compile {α : Type} (source : Text) (tags : Tags) (next : List Node → Plan α) : Plan α
  | join {α β : Type} (count : Nat) (members : Fin count → Plan β) (next : List β → Plan α) :
    Plan α
  /-- A computation inside this one, to which it is a value that comes about. -/
  | inner {α β : Type} (plan : Plan β) (next : β → Plan α) : Plan α

namespace Plan

universe u

variable {α β γ : Type}

/-- Goes on with `f` where the plan is done. -/
def bind : Plan α → (α → Plan β) → Plan β
  | .done result, f => f result
  | .fail error, _ => .fail error
  | .exhausted, _ => .exhausted
  | .await id next, f => .await id fun v => (next v).bind f
  | .callInline id next, f => .callInline id fun v => (next v).bind f
  | .callBlock id call next, f => .callBlock id call fun a => (next a).bind f
  | .compile source tags next, f => .compile source tags fun nodes => (next nodes).bind f
  | .join count members next, f => .join count members fun results => (next results).bind f
  | .inner plan next, f => .inner plan fun result => (next result).bind f

instance : Monad Plan where
  pure := .done
  bind := bind

theorem pure_bind (a : α) (f : α → Plan β) : (Plan.done a).bind f = f a := rfl

theorem bind_done (plan : Plan α) : plan.bind .done = plan := by
  induction plan with
  | done | fail | exhausted => rfl
  | await _ _ ih | callInline _ _ ih | callBlock _ _ _ ih | compile _ _ _ ih => simp [bind, ih]
  | join _ _ _ _ ih | inner _ _ _ ih => simp [bind, ih]

theorem bind_assoc (plan : Plan α) (f : α → Plan β) (g : β → Plan γ) :
    (plan.bind f).bind g = plan.bind fun a => (f a).bind g := by
  induction plan with
  | done | fail | exhausted => rfl
  | await _ _ ih | callInline _ _ ih | callBlock _ _ _ ih | compile _ _ _ ih => simp [bind, ih]
  | join _ _ _ _ ih | inner _ _ _ ih => simp [bind, ih]

@[simp] theorem bind_eq (plan : Plan α) (f : α → Plan β) : plan >>= f = plan.bind f := rfl

@[simp] theorem pure_eq (a : α) : (pure a : Plan α) = .done a := rfl

instance : LawfulMonad Plan :=
  LawfulMonad.mk' Plan bind_done pure_bind bind_assoc

/-- What `f` plans for each item, all together. -/
def each {ι : Type u} (items : List ι) (f : ι → Plan β) : Plan (List β) :=
  let items := items.toArray
  .join items.size (fun i => f items[i]) .done

end Plan
end Stencil
