import Stencil.Proofs.Direct.Process
import Stencil.Proofs.Plan.Chances
import Stencil.Proofs.Plan.Sheds

/-!
# What comes of a plan in order

A plan that is carried out in order ends with a result that it may come to. If it calls no lambda and
may come to a result, then it ends with that.
-/

namespace Stencil

variable {α β : Type} {host : Host}

namespace Direct

theorem outcome_bind_eq_ok {direct : Direct α} {f : α → Direct β} {ledger : Ledger} {b : β} :
    ((direct >>= f).outcome ledger).1 = .ok b ↔ ∃ a, (direct.outcome ledger).1 = .ok a ∧
      ((f a).outcome (direct.outcome ledger).2).1 = .ok b := by
  rw [outcome_bind]
  rcases direct.outcome ledger with ⟨stop | a, after⟩ <;> simp

theorem outcome_await_eq_ok {id : PendingId} {ledger : Ledger} {v : Value} :
    ((await host id).outcome ledger).1 = .ok v ↔ (host.pending id).result = .ok v := by
  unfold await
  rw [outcome_bind_eq_ok]
  cases (host.pending id).result with
  | ok w =>
    constructor
    · rintro ⟨_, -, h⟩
      cases h
      rfl
    · rintro h
      cases h
      exact ⟨(), rfl, rfl⟩
  | error error =>
    constructor
    · rintro ⟨_, -, h⟩
      cases h
    · rintro h
      cases h

theorem outcome_compile_eq_ok {source : Text} {tags : Tags} {ledger : Ledger} {nodes : List Node} :
    ((compile source tags).outcome ledger).1 = .ok nodes ↔ Template.compile source tags = .ok nodes := by
  unfold compile
  cases Template.compile source tags with
  | ok found =>
    rw [outcome_bind_eq_ok]
    constructor
    · rintro ⟨_, -, h⟩
      cases h
      rfl
    · rintro h
      cases h
      exact ⟨(), rfl, rfl⟩
  | error error =>
    constructor
    · rintro h
      cases h
    · rintro h
      cases h

/-- Computations whose results are met one by one. -/
theorem exists_of_outcome_mapM {ι : Type*} {f : ι → Direct β} {is : List ι} {ledger : Ledger}
    {bs : List β} (h : ((is.mapM f).outcome ledger).1 = .ok bs) :
    List.Forall₂ (fun i b => ∃ ledger, ((f i).outcome ledger).1 = .ok b) is bs := by
  induction is generalizing ledger bs with
  | nil =>
    cases h
    exact .nil
  | cons i is ih =>
    rw [List.mapM_cons, outcome_bind_eq_ok] at h
    obtain ⟨b, hb, h⟩ := h
    obtain ⟨others, ho, h⟩ := outcome_bind_eq_ok.1 h
    cases h
    exact .cons ⟨ledger, hb⟩ (ih ho)

theorem exists_outcome_mapM {ι γ : Type*} {S : β → γ → Prop} {f : ι → Direct β} {is : List ι}
    {cs : List γ}
    (h : List.Forall₂ (fun i c => ∀ ledger, ∃ b, ((f i).outcome ledger).1 = .ok b ∧ S b c) is cs)
    (ledger : Ledger) : ∃ bs, ((is.mapM f).outcome ledger).1 = .ok bs ∧ List.Forall₂ S bs cs := by
  induction h generalizing ledger with
  | nil => exact ⟨[], rfl, .nil⟩
  | cons hfirst _ ih =>
    obtain ⟨b, hb, hs⟩ := hfirst ledger
    obtain ⟨bs, hbs, hss⟩ := ih ((f _).outcome ledger).2
    refine ⟨b :: bs, ?_, .cons hs hss⟩
    rw [List.mapM_cons, outcome_bind_eq_ok]
    exact ⟨b, hb, outcome_bind_eq_ok.2 ⟨bs, hbs, rfl⟩⟩

end Direct

namespace Plan

open Direct

theorem forall₂_results {γ : Type} {count : Nat} (results : Fin count → γ) :
    List.Forall₂ (fun i c => c = results i) (List.finRange count) (List.ofFn results) := by
  rw [List.ofFn_eq_map, List.forall₂_map_right_iff, List.forall₂_same]
  exact fun _ _ => rfl

/-- A plan ends with nothing but what it may come to. -/
theorem gives_of_outcome {plan : Plan α} {ledger : Ledger} {a : α}
    (h : ((plan.direct host).outcome ledger).1 = .ok a) : plan.Gives host a := by
  induction plan generalizing ledger with
  | done =>
    cases h
    rfl
  | fail | exhausted => cases h
  | await id next ih =>
    obtain ⟨v, hv, h⟩ := outcome_bind_eq_ok.1 h
    exact ⟨v, outcome_await_eq_ok.1 hv, ih v h⟩
  | callInline id next ih | callBlock id call next ih =>
    obtain ⟨v, hv, h⟩ := outcome_bind_eq_ok.1 h
    cases hv
    exact ⟨_, ih _ h⟩
  | compile source tags next ih =>
    obtain ⟨nodes, hn, h⟩ := outcome_bind_eq_ok.1 h
    exact ⟨nodes, outcome_compile_eq_ok.1 hn, ih nodes h⟩
  | join count members next ihm ih =>
    obtain ⟨results, hr, h⟩ := outcome_bind_eq_ok.1 h
    refine ⟨results, (exists_of_outcome_mapM hr).imp ?_, ih results h⟩
    rintro i result ⟨ledger, hi⟩
    exact ihm i hi
  | inner plan next ihp ih =>
    obtain ⟨result, hr, h⟩ := outcome_bind_eq_ok.1 h
    exact ⟨result, ihp hr, ih result h⟩

/-- A plan that sheds to one which may come to a result ends with such a result. -/
theorem Sheds.exists_outcome {R : β → α → Prop} {plan : Plan β} {other : Plan α}
    (h : Sheds host R plan other) {a : α} (ha : other.Gives host a) (ledger : Ledger) :
    ∃ b, ((plan.direct host).outcome ledger).1 = .ok b ∧ R b a := by
  induction h generalizing ledger with
  | done h =>
    cases ha
    exact ⟨_, rfl, h⟩
  | fail | exhausted => exact ha.elim
  | await id _ ih =>
    obtain ⟨v, hv, ha⟩ := ha
    obtain ⟨b, hb, hR⟩ := ih v hv ha ((Direct.await host id).outcome ledger).2
    exact ⟨b, outcome_bind_eq_ok.2 ⟨v, outcome_await_eq_ok.2 hv, hb⟩, hR⟩
  | compile source tags _ ih =>
    obtain ⟨nodes, hn, ha⟩ := ha
    obtain ⟨b, hb, hR⟩ := ih nodes hn ha ((Direct.compile source tags).outcome ledger).2
    exact ⟨b, outcome_bind_eq_ok.2 ⟨nodes, outcome_compile_eq_ok.2 hn, hb⟩, hR⟩
  | join _ _ ihmembers ih =>
    obtain ⟨cs, hcs, ha⟩ := ha
    obtain ⟨ds, hds, hs⟩ := exists_outcome_mapM (hcs.imp fun i c hc => ihmembers i hc) ledger
    obtain ⟨b, hb, hR⟩ := ih ds cs hs ha _
    exact ⟨b, outcome_bind_eq_ok.2 ⟨ds, hds, hb⟩, hR⟩
  | shed _ hr _ ih =>
    obtain ⟨b, hb, hR⟩ := ih ha _
    exact ⟨b, outcome_bind_eq_ok.2 ⟨_, outcome_await_eq_ok.2 hr, hb⟩, hR⟩
  | @shedJoin _ _ _ _ _ _ _ _ results _ _ _ _ ihmembers ih =>
    have hmembers := (forall₂_results results).imp fun i c hc => ihmembers i hc
    obtain ⟨ds, hds, hs⟩ := exists_outcome_mapM hmembers ledger
    obtain ⟨b, hb, hR⟩ := ih ds hs ha _
    exact ⟨b, outcome_bind_eq_ok.2 ⟨ds, hds, hb⟩, hR⟩

end Plan
end Stencil
