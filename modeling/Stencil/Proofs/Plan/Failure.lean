import Stencil.Process.Queue
import Stencil.Proofs.Plan.Prospect

/-!
# What a plan fails with

The failure that ends a plan when just these values are ready, all of them from the start. A small
join fails with the first failure among its members, a large one only when every member before has
its result. Whether a plan fails does not depend on the order in which values have become ready; with
what it fails may, where it comes to a large join.
-/

namespace Stencil
namespace Plan

variable {α β : Type} {host : Host} {bound : Option Error} {ready more : PendingId → Bool}

/-- What a join fails with when these members have their results and those fail. -/
def joinFailure {count : Nat} (done : Fin count → Bool) (failures : Fin count → Option Error) :
    Option Error :=
  if count ≤ Process.sweepLimit then (List.finRange count).findSome? failures
  else ((List.finRange count).find? fun i => !done i).bind failures

section
variable {count : Nat} {done : Fin count → Bool} {failures : Fin count → Option Error}

theorem isSome_joinFailure_of_le (h : count ≤ Process.sweepLimit) :
    (joinFailure done failures).isSome ↔ ∃ i, (failures i).isSome := by
  simp [joinFailure, h]

/-- A large join fails with the first member that has no result, if that fails. -/
theorem isSome_joinFailure_of_lt (h : Process.sweepLimit < count)
    (hdone : ∀ i, (failures i).isSome → done i = false) :
    (joinFailure done failures).isSome ↔
      ∃ i, (failures i).isSome ∧ ∀ j < i, done j = true := by
  simp only [joinFailure, Nat.not_le.2 h, if_false]
  constructor
  · intro hs
    obtain ⟨error, he⟩ := Option.isSome_iff_exists.1 hs
    obtain ⟨i, hi, hf⟩ := Option.bind_eq_some_iff.1 he
    obtain ⟨-, n, hn, hget, hbefore⟩ := List.find?_eq_some_iff_getElem.1 hi
    obtain rfl : (⟨n, by simpa using hn⟩ : Fin count) = i := by simpa using hget
    refine ⟨_, by rw [hf]; rfl, fun j hj => ?_⟩
    simpa using hbefore j hj
  · rintro ⟨i, hf, hbefore⟩
    have hfind : (List.finRange count).find? (fun i => !done i) = some i := by
      refine List.find?_eq_some_iff_getElem.2 ⟨by simp [hdone i hf], i, by simp, by simp, ?_⟩
      exact fun j hj => by simpa using hbefore ⟨j, by omega⟩ hj
    rw [hfind]
    exact hf

end

/-- The failure of a plan when just these values are ready, if it fails. A plan that comes to its bound
fails with `bound`, if with anything. -/
def failure? (host : Host) (bound : Option Error) (ready : PendingId → Bool) :
    {α : Type} → Plan α → Option Error
  | _, .done _ => none
  | _, .fail error => some error
  | _, .exhausted => bound
  | _, .await id next =>
    if ready id then
      match (host.pending id).result with
      | .ok v => (next v).failure? host bound ready
      | .error error => some error
    else none
  | _, .callInline id next => (next (host.inline id 0)).failure? host bound ready
  | _, .callBlock id call next => (next (host.block id 0 call)).failure? host bound ready
  | _, .compile source tags next =>
    match Template.compile source tags with
    | .ok nodes => (next nodes).failure? host bound ready
    | .error error => some error
  | _, .join count members next =>
    match (List.finRange count).mapM fun i => (members i).result? host ready with
    | some results => (next results).failure? host bound ready
    | none =>
      joinFailure (fun i => ((members i).result? host ready).isSome)
        fun i => (members i).failure? host bound ready
  | _, .inner plan next =>
    match plan.result? host ready with
    | some result => (next result).failure? host bound ready
    | none => plan.failure? host bound ready

/-- Whether a plan comes to a large join when just these values are ready. -/
def Queues (host : Host) (ready : PendingId → Bool) : {α : Type} → Plan α → Prop
  | _, .done _ | _, .fail _ | _, .exhausted => False
  | _, .await id next =>
    ready id = true ∧ ∃ v, (host.pending id).result = .ok v ∧ (next v).Queues host ready
  | _, .callInline id next => (next (host.inline id 0)).Queues host ready
  | _, .callBlock id call next => (next (host.block id 0 call)).Queues host ready
  | _, .compile source tags next =>
    ∃ nodes, Template.compile source tags = .ok nodes ∧ (next nodes).Queues host ready
  | _, .join count members next =>
    Process.sweepLimit < count ∨ (∃ i, (members i).Queues host ready) ∨
      ∃ results, ((List.finRange count).mapM fun i => (members i).result? host ready) = some results ∧
        (next results).Queues host ready
  | _, .inner plan next =>
    plan.Queues host ready ∨
      ∃ result, plan.result? host ready = some result ∧ (next result).Queues host ready

attribute [grind =] failure? Queues

/-- A plan fails after its first part if that has its result, or with it. -/
theorem failure?_bind (plan : Plan α) (f : α → Plan β) :
    (plan.bind f).failure? host bound ready =
      match plan.result? host ready with
      | some a => (f a).failure? host bound ready
      | none => plan.failure? host bound ready := by
  induction plan with
  | done | fail | exhausted => rfl
  | await id next ih =>
    simp only [bind, failure?, result?]
    cases ready id with
    | false => rfl
    | true =>
      cases (host.pending id).result with
      | ok v => exact ih v f
      | error error => rfl
  | callInline id next ih => exact ih _ f
  | callBlock id call next ih => exact ih _ f
  | compile source tags next ih =>
    simp only [bind, failure?, result?]
    cases Template.compile source tags with
    | ok nodes => exact ih nodes f
    | error error => rfl
  | join count members next _ ih =>
    simp only [bind, failure?, result?]
    split
    · rename_i results hm
      simp only [hm, Option.bind_some]
      exact ih results f
    · rename_i hm
      simp only [hm, Option.bind_none]
  | inner plan next _ ih =>
    simp only [bind, failure?, result?]
    split
    · rename_i result hr
      simp only [hr, Option.bind_some]
      exact ih result f
    · rename_i hr
      simp only [hr, Option.bind_none]

theorem queues_bind {plan : Plan α} {f : α → Plan β} :
    (plan.bind f).Queues host ready ↔ plan.Queues host ready ∨
      ∃ a, plan.result? host ready = some a ∧ (f a).Queues host ready := by
  induction plan with
  | done | fail | exhausted => simp [bind, Queues, result?]
  | await id next ih =>
    simp only [bind, Queues, result?, ih]
    cases (host.pending id).result <;> cases ready id <;> simp
  | callInline called next ih => simp only [bind, Queues, result?, ih]
  | callBlock called call next ih => simp only [bind, Queues, result?, ih]
  | compile source tags next ih =>
    simp only [bind, Queues, result?, ih]
    cases Template.compile source tags <;> simp
  | join count members next _ ih =>
    simp only [bind, Queues, result?, ih, Option.bind_eq_some_iff]
    grind
  | inner plan next _ ih =>
    simp only [bind, Queues, result?, ih, Option.bind_eq_some_iff]
    grind

section
variable {plan : Plan α}

theorem failure?_of_result? {result : α} (h : plan.result? host ready = some result) :
    plan.failure? host bound ready = none := by
  induction plan with
  | done => rfl
  | fail | exhausted => cases h
  | await id next ih =>
    simp only [result?] at h
    split at h
    · split at h
      · rename_i hr _ v hv
        simpa [failure?, hr, hv] using ih v h
      · cases h
    · cases h
  | callInline id next ih => exact ih _ h
  | callBlock id call next ih => exact ih _ h
  | compile source tags next ih =>
    simp only [result?] at h
    split at h
    · rename_i nodes hn
      simpa [failure?, hn] using ih nodes h
    · cases h
  | join count members next _ ih =>
    simp only [result?, Option.bind_eq_some_iff] at h
    obtain ⟨results, hm, h⟩ := h
    simpa only [failure?, hm] using ih results h
  | inner plan next _ ih =>
    simp only [result?, Option.bind_eq_some_iff] at h
    obtain ⟨inner, hp, h⟩ := h
    simpa only [failure?, hp] using ih inner h

theorem result?_of_isSome_failure? (h : (plan.failure? host bound ready).isSome) :
    plan.result? host ready = none := by
  cases hr : plan.result? host ready with
  | none => rfl
  | some result =>
    rw [failure?_of_result? hr] at h
    cases h

theorem failure?_inner_done :
    (Plan.inner plan .done).failure? host bound ready = plan.failure? host bound ready := by
  simp only [failure?]
  split
  · rename_i result hr
    rw [failure?_of_result? hr]
  · rfl

theorem queues_inner_done : (Plan.inner plan .done).Queues host ready ↔ plan.Queues host ready := by
  simp [Queues]

section Join
variable {count : Nat} {members : Fin count → Plan β}

theorem mapM_eq_none_of_failure? {i : Fin count} (h : ((members i).failure? host bound ready).isSome) :
    ((List.finRange count).mapM fun i => (members i).result? host ready) = none :=
  result?_join_done.symm.trans (result?_join_of_none (result?_of_isSome_failure? h))

theorem isSome_failure?_join_of_le (hc : count ≤ Process.sweepLimit) :
    ((Plan.join count members .done).failure? host bound ready).isSome ↔
      ∃ i, ((members i).failure? host bound ready).isSome := by
  simp only [failure?]
  split
  · rename_i results hm
    refine ⟨nofun, fun ⟨i, hi⟩ => ?_⟩
    rw [mapM_eq_none_of_failure? hi] at hm
    cases hm
  · exact isSome_joinFailure_of_le hc

theorem failure?_join_eq_none_of_le (hc : count ≤ Process.sweepLimit)
    (h : ∀ i, (members i).failure? host bound ready = none) :
    (Plan.join count members .done).failure? host bound ready = none := by
  rw [← Option.not_isSome_iff_eq_none, isSome_failure?_join_of_le hc]
  rintro ⟨i, hi⟩
  rw [h i] at hi
  cases hi

theorem isSome_failure?_join_of_lt (hc : Process.sweepLimit < count) :
    ((Plan.join count members .done).failure? host bound ready).isSome ↔
      ∃ i, ((members i).failure? host bound ready).isSome ∧
        ∀ j < i, ((members j).result? host ready).isSome := by
  simp only [failure?]
  split
  · rename_i results hm
    refine ⟨nofun, fun ⟨i, hi, _⟩ => ?_⟩
    rw [mapM_eq_none_of_failure? hi] at hm
    cases hm
  · refine isSome_joinFailure_of_lt hc fun i hi => ?_
    rw [result?_of_isSome_failure? hi]
    rfl

/-- A join fails when another fails whose members have no more failures and no more results. -/
theorem isSome_failure?_join_imp {γ : Type} {others : Fin count → Plan γ} {bound' : Option Error}
    (hfails : ∀ i, ((others i).failure? host bound' more).isSome →
      ((members i).failure? host bound ready).isSome)
    (hdone : ∀ i, ((others i).result? host more).isSome → ((members i).result? host ready).isSome)
    (h : ((Plan.join count others .done).failure? host bound' more).isSome) :
    ((Plan.join count members .done).failure? host bound ready).isSome := by
  rcases Nat.lt_or_ge Process.sweepLimit count with hc | hc
  · rw [isSome_failure?_join_of_lt hc] at h ⊢
    obtain ⟨i, hi, hbefore⟩ := h
    exact ⟨i, hfails i hi, fun j hj => hdone j (hbefore j hj)⟩
  · rw [isSome_failure?_join_of_le hc] at h ⊢
    obtain ⟨i, hi⟩ := h
    exact ⟨i, hfails i hi⟩

/-- What a join fails with, nothing goes on after. -/
theorem isSome_failure?_join (next : List β → Plan α)
    (h : ((Plan.join count members .done).failure? host bound ready).isSome) :
    ((Plan.join count members next).failure? host bound ready).isSome := by
  have hm := result?_of_isSome_failure? h
  rw [result?_join_done] at hm
  simpa only [failure?, hm] using h

/-- A small join fails with the first of its members that fails. -/
theorem failure?_join_of_first (hc : count ≤ Process.sweepLimit) {i : Fin count}
    {front back : List (Fin count)} {error : Error} (hi : List.finRange count = front ++ i :: back)
    (h : (members i).failure? host bound ready = some error)
    (hfront : ∀ j ∈ front, (members j).failure? host bound ready = none) :
    (Plan.join count members .done).failure? host bound ready = some error := by
  have hm : ((List.finRange count).mapM fun i => (members i).result? host ready) = none :=
    mapM_eq_none_of_failure? (by rw [h]; rfl)
  have hnone : (front.findSome? fun i => (members i).failure? host bound ready) = none :=
    List.findSome?_eq_none_iff.2 hfront
  simp only [failure?, hm, joinFailure, hc, if_true]
  rw [hi, List.findSome?_append, hnone, Option.none_or, List.findSome?_cons_of_isSome (by simp [h]), h]

end Join

/-- More ready values do not undo a failure. -/
theorem isSome_failure?_mono (h : ∀ id, ready id = true → more id = true)
    (hf : (plan.failure? host bound ready).isSome) : (plan.failure? host bound more).isSome := by
  induction plan with
  | done | fail | exhausted => exact hf
  | await id next ih =>
    simp only [failure?] at hf ⊢
    split at hf
    · rw [if_pos (h id ‹_›)]
      split at hf
      · exact ih _ hf
      · exact hf
    · cases hf
  | callInline called next ih => exact ih _ hf
  | callBlock called call next ih => exact ih _ hf
  | compile source tags next ih =>
    simp only [failure?] at hf ⊢
    split at hf
    · exact ih _ hf
    · exact hf
  | join count members next ihm ih =>
    simp only [failure?] at hf
    split at hf
    · rename_i results hm
      simp only [failure?, members_result?_mono h hm]
      exact ih results hf
    · -- a member fails before and after
      rename_i hm
      have hjoin : ((Plan.join count members .done).failure? host bound ready).isSome := by
        simpa only [failure?, hm] using hf
      refine isSome_failure?_join next (isSome_failure?_join_imp ihm (fun i hi => ?_) hjoin)
      obtain ⟨result, hr⟩ := Option.isSome_iff_exists.1 hi
      rw [result?_mono h hr]
      rfl
  | inner plan next ihp ih =>
    simp only [failure?] at hf ⊢
    split at hf
    · rename_i result hr
      simp only [result?_mono h hr]
      exact ih result hf
    · simp only [result?_of_isSome_failure? (ihp hf)]
      exact ihp hf

/-- Nor do they undo a large join. -/
theorem Queues.mono (h : ∀ id, ready id = true → more id = true) (hq : plan.Queues host ready) :
    plan.Queues host more := by
  induction plan with
  | done | fail | exhausted => exact hq
  | await id next ih =>
    obtain ⟨hr, v, hv, hq⟩ := hq
    exact ⟨h _ hr, v, hv, ih v hq⟩
  | callInline called next ih => exact ih _ hq
  | callBlock called call next ih => exact ih _ hq
  | compile source tags next ih =>
    obtain ⟨nodes, hn, hq⟩ := hq
    exact ⟨nodes, hn, ih _ hq⟩
  | join count members next ihm ih =>
    rcases hq with hc | ⟨i, hq⟩ | ⟨results, hm, hq⟩
    · exact .inl hc
    · exact .inr (.inl ⟨i, ihm i hq⟩)
    · exact .inr (.inr ⟨results, members_result?_mono h hm, ih _ hq⟩)
  | inner plan next ihp ih =>
    rcases hq with hq | ⟨result, hp, hq⟩
    · exact .inl (ihp hq)
    · exact .inr ⟨result, result?_mono h hp, ih _ hq⟩

end

end Plan
end Stencil
