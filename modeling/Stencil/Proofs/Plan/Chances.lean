import Stencil.Proofs.Plan.Prospect

/-!
# What may become of a plan

The results that a plan may come to and the pending values that it may come for, whichever values
are ready and whatever its lambdas answer at whichever call.
-/

namespace Stencil
namespace Plan

variable {α β : Type} {host : Host} {id : PendingId}

/-- The results that a plan may come to. -/
def Gives (host : Host) : {α : Type} → Plan α → α → Prop
  | _, .done result, wanted => wanted = result
  | _, .fail _, _ | _, .exhausted, _ => False
  | _, .await id next, wanted => ∃ v, (host.pending id).result = .ok v ∧ (next v).Gives host wanted
  | _, .callInline id next, wanted => ∃ n, (next (host.inline id n)).Gives host wanted
  | _, .callBlock id call next, wanted => ∃ n, (next (host.block id n call)).Gives host wanted
  | _, .compile source tags next, wanted =>
    ∃ nodes, Template.compile source tags = .ok nodes ∧ (next nodes).Gives host wanted
  | _, .join count members next, wanted =>
    ∃ results, List.Forall₂ (fun i result => (members i).Gives host result) (List.finRange count)
      results ∧ (next results).Gives host wanted
  | _, .inner plan next, wanted =>
    ∃ result, plan.Gives host result ∧ (next result).Gives host wanted

/-- The pending values that a plan may come for. -/
def Asks (host : Host) (id : PendingId) : {α : Type} → Plan α → Prop
  | _, .done _ | _, .fail _ | _, .exhausted => False
  | _, .await awaited next =>
    id = awaited ∨ ∃ v, (host.pending awaited).result = .ok v ∧ (next v).Asks host id
  | _, .callInline called next => ∃ n, (next (host.inline called n)).Asks host id
  | _, .callBlock called call next => ∃ n, (next (host.block called n call)).Asks host id
  | _, .compile source tags next =>
    ∃ nodes, Template.compile source tags = .ok nodes ∧ (next nodes).Asks host id
  | _, .join count members next =>
    (∃ i, (members i).Asks host id) ∨
      ∃ results, List.Forall₂ (fun i result => (members i).Gives host result) (List.finRange count)
        results ∧ (next results).Asks host id
  | _, .inner plan next =>
    plan.Asks host id ∨ ∃ result, plan.Gives host result ∧ (next result).Asks host id

theorem gives_bind {plan : Plan α} {f : α → Plan β} {result : β} :
    (plan.bind f).Gives host result ↔ ∃ a, plan.Gives host a ∧ (f a).Gives host result := by
  induction plan with
  | done | fail | exhausted => simp [bind, Gives]
  | await _ _ ih | callInline _ _ ih | callBlock _ _ _ ih | compile _ _ _ ih | join _ _ _ _ ih
  | inner _ _ _ ih =>
    simp only [bind, Gives, ih]
    grind

theorem asks_bind {plan : Plan α} {f : α → Plan β} :
    (plan.bind f).Asks host id ↔
      plan.Asks host id ∨ ∃ a, plan.Gives host a ∧ (f a).Asks host id := by
  induction plan with
  | done | fail | exhausted => simp [bind, Gives, Asks]
  | await _ _ ih | callInline _ _ ih | callBlock _ _ _ ih | compile _ _ _ ih | join _ _ _ _ ih
  | inner _ _ _ ih =>
    simp only [bind, Gives, Asks, ih]
    grind

/-- The result that a plan gets to with some values ready is one that it may come to. -/
theorem gives_of_result? {ready : PendingId → Bool} {plan : Plan α} {result : α}
    (h : plan.result? host ready = some result) : plan.Gives host result := by
  induction plan with
  | done => exact (Option.some.inj h).symm
  | fail | exhausted => cases h
  | await id next ih =>
    simp only [result?] at h
    split at h
    · split at h
      · exact ⟨_, by assumption, ih _ h⟩
      · cases h
    · cases h
  | callInline id next ih | callBlock id call next ih => exact ⟨0, ih _ h⟩
  | compile source tags next ih =>
    simp only [result?] at h
    split at h
    · exact ⟨_, by assumption, ih _ h⟩
    · cases h
  | join count members next ihm ih =>
    simp only [result?, Option.bind_eq_some_iff, mapM_eq_some_iff] at h
    obtain ⟨results, hm, hn⟩ := h
    exact ⟨results, hm.imp fun i _ => ihm i, ih _ hn⟩
  | inner plan next ihp ih =>
    simp only [result?, Option.bind_eq_some_iff] at h
    obtain ⟨inner, hp, hn⟩ := h
    exact ⟨inner, ihp hp, ih _ hn⟩

section
variable {count : Nat} {members : Fin count → Plan β}

theorem gives_join_done {results : List β} : (Plan.join count members .done).Gives host results ↔
    List.Forall₂ (fun i result => (members i).Gives host result) (List.finRange count) results := by
  simp [Gives]

theorem asks_join_done :
    (Plan.join count members .done).Asks host id ↔ ∃ i, (members i).Asks host id := by
  simp [Asks]

theorem gives_inner_done {plan : Plan β} {result : β} :
    (Plan.inner plan .done).Gives host result ↔ plan.Gives host result := by
  simp [Gives]

theorem asks_inner_done {plan : Plan β} :
    (Plan.inner plan .done).Asks host id ↔ plan.Asks host id := by
  simp [Asks]

end

section Each
variable {ι : Type*} {items : List ι} {f : ι → Plan β}

theorem asks_each : (each items f).Asks host id ↔ ∃ item ∈ items, (f item).Asks host id := by
  rw [each, asks_join_done]
  exact (List.exists_mem_iff_get (p := fun item => (f item).Asks host id)).symm

theorem gives_each {results : List β} : (each items f).Gives host results ↔
    List.Forall₂ (fun item result => (f item).Gives host result) items results := by
  have hall : ((List.finRange items.length).map fun i => items[i]) = items :=
    List.map_getElem_finRange items
  have hmap := @List.forall₂_map_left_iff _ _ _
    (fun item result => (f item).Gives host result) (fun i : Fin items.length => items[i])
    (List.finRange items.length) results
  rw [hall] at hmap
  rw [each, gives_join_done]
  exact hmap.symm

end Each

end Plan
end Stencil
