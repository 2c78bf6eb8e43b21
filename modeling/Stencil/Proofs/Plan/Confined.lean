import Mathlib.Algebra.BigOperators.Fin
import Stencil.Proofs.Plan.Chances

/-!
# Confined plans

A plan that calls no lambda, comes for some pending values only, never reaches the bound on nested
work, and has only so much to do, whichever values are ready. Whether it does is a matter of its
parts: of what it comes for, and of what follows each result that it may come to.
-/

namespace Stencil
namespace Plan

variable {α β : Type} {host : Host} {ids : PendingId → Prop} {weight more : Nat}

/-- The plan comes for such values only, calls no lambda and has its bound nowhere. However it goes
on, the values that it comes for and the members of its joins are no more than so many. -/
def Confined (host : Host) (ids : PendingId → Prop) : {α : Type} → (weight : Nat) → Plan α → Prop
  | _, _, .done _ | _, _, .fail _ => True
  | _, _, .exhausted | _, _, .callInline _ _ | _, _, .callBlock _ _ _ | _, _, .inner _ _ => False
  | _, weight, .await id next => ids id ∧ ∃ rest < weight, ∀ v, (host.pending id).result = .ok v →
    (next v).Confined host ids rest
  | _, weight, .compile source tags next =>
    ∀ nodes, Template.compile source tags = .ok nodes → (next nodes).Confined host ids weight
  | _, weight, .join count members next =>
    ∃ (own : Fin count → Nat) (rest : Nat), ∑ i, own i + count + rest ≤ weight ∧
      (∀ i, (members i).Confined host ids (own i)) ∧
      ∀ results, List.Forall₂ (fun i result => (members i).Gives host result) (List.finRange count)
        results → (next results).Confined host ids rest

namespace Confined

theorem mono {plan : Plan α} (h : plan.Confined host ids weight) (hle : weight ≤ more) :
    plan.Confined host ids more := by
  induction plan generalizing weight more with
  | done | fail => trivial
  | exhausted | callInline | callBlock | inner => exact h.elim
  | await id next =>
    obtain ⟨hid, rest, hlt, h⟩ := h
    exact ⟨hid, rest, by omega, h⟩
  | compile source tags next ih => exact fun nodes hn => ih nodes (h nodes hn) hle
  | join count members next =>
    obtain ⟨own, rest, hlt, h⟩ := h
    exact ⟨own, rest, by omega, h⟩

theorem bind {plan : Plan α} {f : α → Plan β} (h : plan.Confined host ids weight)
    (hf : ∀ a, plan.Gives host a → (f a).Confined host ids more) :
    (plan.bind f).Confined host ids (weight + more) := by
  induction plan generalizing weight with
  | done result => exact (hf result rfl).mono (Nat.le_add_left ..)
  | fail => trivial
  | exhausted | callInline | callBlock | inner => exact h.elim
  | await id next ih =>
    obtain ⟨hid, rest, hlt, h⟩ := h
    exact ⟨hid, rest + more, by omega, fun v hv => ih v (h v hv) fun a ha => hf a ⟨v, hv, ha⟩⟩
  | compile source tags next ih =>
    exact fun nodes hn => ih nodes (h nodes hn) fun a ha => hf a ⟨nodes, hn, ha⟩
  | join count members next _ ih =>
    obtain ⟨own, rest, hlt, hm, h⟩ := h
    exact ⟨own, rest + more, by omega, hm,
      fun results hr => ih results (h results hr) fun a ha => hf a ⟨results, hr, ha⟩⟩

/-- What follows has nothing more to do. -/
theorem bind_done {plan : Plan α} {f : α → β} (h : plan.Confined host ids weight) :
    (plan.bind fun a => .done (f a)).Confined host ids weight := by
  have hdone : ∀ a, plan.Gives host a → (Plan.done (f a)).Confined host ids 0 := fun _ _ => trivial
  exact h.bind hdone

theorem each {ι : Type*} {items : List ι} {f : ι → Plan β}
    (h : ∀ item ∈ items, (f item).Confined host ids weight) :
    (Plan.each items f).Confined host ids (items.length * (weight + 1)) :=
  ⟨fun _ => weight, 0, by simp [Nat.mul_succ], fun _ => h _ (by simp), fun _ _ => trivial⟩

/-- It may come for no others. -/
theorem of_asks {plan : Plan α} (h : plan.Confined host ids weight) {id : PendingId}
    (ha : plan.Asks host id) : ids id := by
  induction plan generalizing weight with
  | done | fail => exact ha.elim
  | exhausted | callInline | callBlock | inner => exact h.elim
  | await awaited next ih =>
    obtain ⟨hid, rest, -, h⟩ := h
    rcases ha with rfl | ⟨v, hv, ha⟩
    · exact hid
    · exact ih v (h v hv) ha
  | compile source tags next ih =>
    obtain ⟨nodes, hn, ha⟩ := ha
    exact ih nodes (h nodes hn) ha
  | join count members next ihm ih =>
    obtain ⟨own, rest, -, hm, h⟩ := h
    rcases ha with ⟨i, ha⟩ | ⟨results, hr, ha⟩
    · exact ihm i (hm i) ha
    · exact ih results (h results hr) ha

end Confined

end Plan
end Stencil
