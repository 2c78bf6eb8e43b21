import Mathlib.Order.Fin.Basic
import Mathlib.Order.Minimal
import Stencil.Proofs.Plan.Failure

/-!
# Plans with more to await

A plan sheds to another when the two do the same, but for values that are there at once: here and
there the first awaits one that the second does not, or joins plans that do nothing else, and goes on
with what has come of it.
-/

namespace Stencil
namespace Plan

/-- The results of the two plans are in a relation. -/
inductive Sheds (host : Host) : {β α : Type} → (β → α → Prop) → Plan β → Plan α → Prop
  | done {β α : Type} {R : β → α → Prop} {b : β} {a : α} (h : R b a) :
    Sheds host R (.done b) (.done a)
  | fail {β α : Type} {R : β → α → Prop} (error : Error) : Sheds host R (.fail error) (.fail error)
  /-- The second has reached its bound: how the first goes on is left open. -/
  | exhausted {β α : Type} {R : β → α → Prop} (plan : Plan β) : Sheds host R plan .exhausted
  | await {β α : Type} {R : β → α → Prop} (id : PendingId) {more : Value → Plan β}
    {next : Value → Plan α}
    (h : ∀ v, (host.pending id).result = .ok v → Sheds host R (more v) (next v)) :
    Sheds host R (.await id more) (.await id next)
  | compile {β α : Type} {R : β → α → Prop} (source : Text) (tags : Tags)
    {more : List Node → Plan β} {next : List Node → Plan α}
    (h : ∀ nodes, Template.compile source tags = .ok nodes → Sheds host R (more nodes) (next nodes)) :
    Sheds host R (.compile source tags more) (.compile source tags next)
  | join {β α δ γ : Type} {R : β → α → Prop} {S : δ → γ → Prop} {count : Nat}
    {members : Fin count → Plan δ} {others : Fin count → Plan γ} {more : List δ → Plan β}
    {next : List γ → Plan α} (hmembers : ∀ i, Sheds host S (members i) (others i))
    (h : ∀ ds cs, List.Forall₂ S ds cs → Sheds host R (more ds) (next cs)) :
    Sheds host R (.join count members more) (.join count others next)
  /-- Only the first awaits a value, which is there. -/
  | shed {β α : Type} {R : β → α → Prop} {id : PendingId} {v : Value} {more : Value → Plan β}
    {plan : Plan α} (hm : (host.pending id).manual = false) (hr : (host.pending id).result = .ok v)
    (h : Sheds host R (more v) plan) : Sheds host R (.await id more) plan
  /-- Only the first has a join, whose members await nothing but values that are there. -/
  | shedJoin {β α δ γ : Type} {R : β → α → Prop} {S : δ → γ → Prop} {count : Nat}
    {members : Fin count → Plan δ} {results : Fin count → γ} {more : List δ → Plan β} {plan : Plan α}
    (hmembers : ∀ i, Sheds host S (members i) (.done (results i)))
    (h : ∀ ds, List.Forall₂ S ds (List.ofFn results) → Sheds host R (more ds) plan) :
    Sheds host R (.join count members more) plan

namespace Sheds

variable {host : Host} {δ γ β α : Type} {S : δ → γ → Prop} {R : β → α → Prop}

theorem bind {first : Plan δ} {second : Plan γ} {f : δ → Plan β} {g : γ → Plan α}
    (h : Sheds host S first second) (hf : ∀ d c, S d c → Sheds host R (f d) (g c)) :
    Sheds host R (first.bind f) (second.bind g) := by
  induction h with
  | done h => exact hf _ _ h
  | fail error => exact .fail error
  | exhausted plan => exact .exhausted _
  | await id _ ih => exact .await id fun v hv => ih v hv hf
  | compile source tags _ ih => exact .compile source tags fun nodes hn => ih nodes hn hf
  | join hmembers _ _ ih => exact .join hmembers fun ds cs hs => ih ds cs hs hf
  | shed hm hr _ ih => exact .shed hm hr (ih hf)
  | shedJoin hmembers _ _ ih => exact .shedJoin hmembers fun ds hs => ih ds hs hf

theorem map {first : Plan δ} {second : Plan γ} {f : δ → β} {g : γ → α}
    (h : Sheds host S first second) (hf : ∀ d c, S d c → R (f d) (g c)) :
    Sheds host R (first.bind fun d => .done (f d)) (second.bind fun c => .done (g c)) :=
  h.bind fun d c hs => .done (hf d c hs)

theorem imp {T : δ → γ → Prop} {first : Plan δ} {second : Plan γ} (h : Sheds host S first second)
    (hST : ∀ d c, S d c → T d c) : Sheds host T first second := by
  have hdone : ∀ d c, S d c → Sheds host T (.done d) (.done c) := fun d c hs => .done (hST d c hs)
  have hbind := h.bind hdone
  rwa [bind_done, bind_done] at hbind

/-- The only result of a plan that is done. -/
theorem of_done {first : Plan δ} {c : γ} (h : Sheds host S first (.done c)) :
    Sheds host (fun d c' => S d c' ∧ c' = c) first (.done c) := by
  generalize hp : Plan.done c = second at h
  induction h with
  | done h =>
    cases hp
    exact .done ⟨h, rfl⟩
  | fail | exhausted | await | compile | join => cases hp
  | shed hm hr _ ih => exact .shed hm hr (ih hp)
  | shedJoin hmembers _ _ ih => exact .shedJoin hmembers fun ds hs => ih ds hs hp

/-- A join over a list has as many members as the list is long. -/
theorem each_eq {ι : Type*} {items : List ι} {count : Nat} (h : count = items.length)
    (f : ι → Plan δ) :
    each items f = .join count (fun i => f (items.get (i.cast h))) .done := by
  subst h
  rfl

theorem each {ι κ : Type*} {T : ι → κ → Prop} {items : List ι} {others : List κ}
    {f : ι → Plan δ} {g : κ → Plan γ} (h : List.Forall₂ T items others)
    (hf : ∀ i k, T i k → Sheds host S (f i) (g k)) :
    Sheds host (List.Forall₂ S) (each items f) (each others g) := by
  obtain ⟨hlength, hget⟩ := List.forall₂_iff_get.1 h
  rw [each_eq rfl, each_eq hlength]
  refine .join (fun i => hf _ _ ?_) fun ds cs hs => .done hs
  exact hget i i.isLt (hlength ▸ i.isLt)

/-- A join over a list whose members await nothing but values that are there. -/
theorem each_done {ι : Type*} {items : List ι} {results : List γ} {f : ι → Plan δ}
    (h : List.Forall₂ (fun i c => Sheds host S (f i) (.done c)) items results) :
    Sheds host (List.Forall₂ S) (Plan.each items f) (.done results) := by
  obtain ⟨hlength, hget⟩ := List.forall₂_iff_get.1 h
  have hresults : List.ofFn (fun i : Fin items.length => results.get (i.cast hlength)) = results := by
    refine List.ext_getElem (by simp [hlength]) fun n _ _ => ?_
    simp
  have hmembers : ∀ i : Fin items.length,
      Sheds host S (f (items.get i)) (.done (results.get (i.cast hlength))) :=
    fun i => hget i i.isLt (hlength ▸ i.isLt)
  rw [each_eq rfl]
  exact .shedJoin hmembers fun ds hs => .done (hresults ▸ hs)

end Sheds

theorem exists_mapM {ι δ γ : Type*} {S : δ → γ → Prop} {f : ι → Option δ} {g : ι → Option γ}
    (h : ∀ i c, g i = some c → ∃ d, f i = some d ∧ S d c) {is : List ι} {cs : List γ}
    (hg : is.mapM g = some cs) : ∃ ds, is.mapM f = some ds ∧ List.Forall₂ S ds cs := by
  rw [mapM_eq_some_iff] at hg
  induction hg with
  | nil => exact ⟨[], rfl, .nil⟩
  | @cons i c is cs hc _ ih =>
    obtain ⟨d, hd, hs⟩ := h i c hc
    obtain ⟨ds, hds, hss⟩ := ih
    exact ⟨d :: ds, by simp [hd, hds], .cons hs hss⟩

section Prospects
variable {host : Host} {ready : PendingId → Bool} {β α : Type} {R : β → α → Prop} {plan : Plan β}
  {other : Plan α}

/-- The prospects of members that are done. -/
theorem exists_results {δ γ : Type} {S : δ → γ → Prop} {count : Nat} {members : Fin count → Plan δ}
    {results : Fin count → γ}
    (h : ∀ i, ∃ d, (members i).result? host ready = some d ∧ S d (results i)) :
    ∃ ds, ((List.finRange count).mapM fun i => (members i).result? host ready) = some ds ∧
      List.Forall₂ S ds (List.ofFn results) := by
  rw [List.ofFn_eq_map]
  refine exists_mapM (fun i c hc => ?_) (mapM_eq_some_map (fun _ => rfl) (List.finRange count))
  obtain ⟨d, hd, hs⟩ := h i
  obtain rfl : results i = c := by simpa using hc
  exact ⟨d, hd, hs⟩

/-- The first has a result where the second has one. -/
theorem Sheds.exists_result? (h : Sheds host R plan other)
    (hr : ∀ id, (host.pending id).manual = false → ready id = true) {a : α}
    (ha : other.result? host ready = some a) : ∃ b, plan.result? host ready = some b ∧ R b a := by
  induction h with
  | done h =>
    cases ha
    exact ⟨_, rfl, h⟩
  | fail | exhausted => cases ha
  | await id _ ih =>
    cases hready : ready id with
    | false => simp [result?, hready] at ha
    | true =>
      cases hv : (host.pending id).result with
      | error error => simp [result?, hv] at ha
      | ok v =>
        simp only [result?, hready, hv, if_true] at ha ⊢
        exact ih v hv ha
  | compile source tags _ ih =>
    cases hn : Template.compile source tags with
    | error error => simp [result?, hn] at ha
    | ok nodes =>
      simp only [result?, hn] at ha ⊢
      exact ih nodes hn ha
  | join _ _ ihmembers ih =>
    simp only [result?, Option.bind_eq_some_iff] at ha ⊢
    obtain ⟨cs, hcs, ha⟩ := ha
    obtain ⟨ds, hds, hs⟩ := exists_mapM (fun i _ => ihmembers i) hcs
    obtain ⟨b, hb, hR⟩ := ih ds cs hs ha
    exact ⟨b, ⟨ds, hds, hb⟩, hR⟩
  | shed hm hv _ ih =>
    simp only [result?, hr _ hm, hv, if_true]
    exact ih ha
  | shedJoin _ _ ihmembers ih =>
    obtain ⟨ds, hds, hs⟩ := exists_results fun i => ihmembers i rfl
    simp only [result?, hds, Option.bind_some]
    exact ih ds hs ha

/-- The first fails where the second fails. -/
theorem Sheds.isSome_failure? (h : Sheds host R plan other)
    (hr : ∀ id, (host.pending id).manual = false → ready id = true)
    (hf : (other.failure? host none ready).isSome) : (plan.failure? host none ready).isSome := by
  induction h with
  | done | exhausted => cases hf
  | fail => exact hf
  | await id _ ih =>
    cases hready : ready id with
    | false => simp [failure?, hready] at hf
    | true =>
      cases hv : (host.pending id).result with
      | error error => simp [failure?, hready, hv]
      | ok v =>
        simp only [failure?, hready, hv, if_true] at hf ⊢
        exact ih v hv hf
  | compile source tags _ ih =>
    cases hn : Template.compile source tags with
    | error error => simp [failure?, hn]
    | ok nodes =>
      simp only [failure?, hn] at hf ⊢
      exact ih nodes hn hf
  | @join _ _ _ _ _ _ count members others more next hmembers _ ihmembers ih =>
    simp only [failure?] at hf
    split at hf
    · rename_i cs hcs
      obtain ⟨ds, hds, hs⟩ := exists_mapM (fun i _ hc => (hmembers i).exists_result? hr hc) hcs
      simp only [failure?, hds]
      exact ih ds cs hs hf
    · rename_i hcs
      have hjoin : ((Plan.join count others .done).failure? host none ready).isSome := by
        simpa only [failure?, hcs] using hf
      refine isSome_failure?_join more (isSome_failure?_join_imp ihmembers (fun i hi => ?_) hjoin)
      obtain ⟨c, hc⟩ := Option.isSome_iff_exists.1 hi
      obtain ⟨d, hd, -⟩ := (hmembers i).exists_result? hr hc
      rw [hd]
      rfl
  | shed hm hv _ ih =>
    simp only [failure?, hr _ hm, hv, if_true]
    exact ih hf
  | shedJoin hmembers _ _ ih =>
    obtain ⟨ds, hds, hs⟩ := exists_results fun i => (hmembers i).exists_result? hr rfl
    simp only [failure?, hds]
    exact ih ds hs hf

/-- The first member without a result. -/
theorem exists_first {δ : Type} {count : Nat} {members : Fin count → Plan δ}
    (h : ((List.finRange count).mapM fun i => (members i).result? host ready) = none) :
    ∃ i, (members i).result? host ready = none ∧ ∀ j < i, ((members j).result? host ready).isSome := by
  have hsome : ∃ i, (members i).result? host ready = none := by
    by_contra hall
    have hdone : ∀ i, ∃ d, (members i).result? host ready = some d := fun i =>
      Option.ne_none_iff_exists'.1 fun hi => hall ⟨i, hi⟩
    choose d hd using hdone
    have hmap := mapM_eq_some_map hd (List.finRange count)
    rw [h] at hmap
    cases hmap
  obtain ⟨i, hi, hmin⟩ := exists_minimal_of_wellFoundedLT _ hsome
  refine ⟨i, hi, fun j hj => ?_⟩
  rw [← Option.ne_none_iff_isSome]
  exact fun hnone => absurd (hmin hnone hj.le) (not_le.2 hj)

/-- A join of which a member waits, and none has failed or come to its bound as far as that tells. -/
theorem waits_join {δ γ : Type} {count : Nat} {members : Fin count → Plan δ}
    {others : Fin count → Plan γ} {error : Error}
    (hdone : ∀ i, ((others i).result? host ready).isSome → ((members i).result? host ready).isSome)
    (hwaits : ∀ i, (others i).result? host ready = none →
      (others i).failure? host (some error) ready = none →
      (members i).result? host ready = none ∧ (members i).failure? host none ready = none)
    (hm : ((List.finRange count).mapM fun i => (others i).result? host ready) = none)
    (hf : (Plan.join count others .done).failure? host (some error) ready = none) :
    ((List.finRange count).mapM fun i => (members i).result? host ready) = none ∧
      (Plan.join count members .done).failure? host none ready = none := by
  -- what fails in the first join fails in the second, or has come to its bound there
  have hfails : ∀ k, ((members k).failure? host none ready).isSome →
      ((others k).failure? host (some error) ready).isSome := by
    intro k hk
    have hnone := result?_of_isSome_failure? hk
    rw [← Option.ne_none_iff_isSome]
    intro hk'
    cases ho : (others k).result? host ready with
    | none =>
      rw [(hwaits k ho hk').2] at hk
      cases hk
    | some c =>
      have hs := hdone k (by rw [ho]; rfl)
      rw [hnone] at hs
      cases hs
  obtain ⟨i, hi, hbefore⟩ := exists_first hm
  rw [← Option.not_isSome_iff_eq_none] at hf
  have hi' : (others i).failure? host (some error) ready = none := by
    rw [← Option.not_isSome_iff_eq_none]
    intro hs
    rcases Nat.lt_or_ge Process.sweepLimit count with hc | hc
    · exact hf ((isSome_failure?_join_of_lt hc).2 ⟨i, hs, hbefore⟩)
    · exact hf ((isSome_failure?_join_of_le hc).2 ⟨i, hs⟩)
  obtain ⟨hnone, hnever⟩ := hwaits i hi hi'
  refine ⟨result?_join_done.symm.trans (result?_join_of_none hnone), ?_⟩
  rw [← Option.not_isSome_iff_eq_none]
  rcases Nat.lt_or_ge Process.sweepLimit count with hc | hc
  · rw [isSome_failure?_join_of_lt hc]
    rintro ⟨k, hk, hbeforek⟩
    rcases lt_trichotomy i k with hlt | rfl | hlt
    · have hs := hbeforek i hlt
      rw [hnone] at hs
      cases hs
    · rw [hnever] at hk
      cases hk
    · have hs := hdone k (hbefore k hlt)
      rw [result?_of_isSome_failure? hk] at hs
      cases hs
  · rw [isSome_failure?_join_of_le hc] at hf ⊢
    rintro ⟨k, hk⟩
    exact hf ⟨k, hfails k hk⟩

/-- The first can go no further where the second can go no further and has not come to its bound. -/
theorem Sheds.waits (h : Sheds host R plan other)
    (hr : ∀ id, (host.pending id).manual = false → ready id = true) {error : Error}
    (hnone : other.result? host ready = none) (hf : other.failure? host (some error) ready = none) :
    plan.result? host ready = none ∧ plan.failure? host none ready = none := by
  induction h with
  | done => cases hnone
  | fail | exhausted => cases hf
  | await id _ ih =>
    cases hready : ready id with
    | false => simp [result?, failure?, hready]
    | true =>
      cases hv : (host.pending id).result with
      | error error => simp [failure?, hready, hv] at hf
      | ok v =>
        simp only [result?, failure?, hready, hv, if_true] at hnone hf ⊢
        exact ih v hv hnone hf
  | compile source tags _ ih =>
    cases hn : Template.compile source tags with
    | error error => simp [failure?, hn] at hf
    | ok nodes =>
      simp only [result?, failure?, hn] at hnone hf ⊢
      exact ih nodes hn hnone hf
  | @join _ _ _ _ _ _ count members others more next hmembers _ ihmembers ih =>
    cases hm : (List.finRange count).mapM fun i => (others i).result? host ready with
    | some cs =>
      obtain ⟨ds, hds, hs⟩ := exists_mapM (fun i _ hc => (hmembers i).exists_result? hr hc) hm
      simp only [result?, failure?, hm, hds, Option.bind_some] at hnone hf ⊢
      exact ih ds cs hs hnone hf
    | none =>
      have hdone : ∀ i, ((others i).result? host ready).isSome →
          ((members i).result? host ready).isSome := by
        intro i hi
        obtain ⟨c, hc⟩ := Option.isSome_iff_exists.1 hi
        obtain ⟨d, hd, -⟩ := (hmembers i).exists_result? hr hc
        rw [hd]
        rfl
      have hjoin : (Plan.join count others .done).failure? host (some error) ready = none := by
        simpa only [failure?, hm] using hf
      obtain ⟨hds, hmore⟩ := waits_join hdone ihmembers hm hjoin
      simp only [result?, failure?, hds, Option.bind_none] at hmore ⊢
      exact ⟨trivial, hmore⟩
  | shed hm hv _ ih =>
    simp only [result?, failure?, hr _ hm, hv, if_true]
    exact ih hnone hf
  | shedJoin hmembers _ _ ih =>
    obtain ⟨ds, hds, hs⟩ := exists_results fun i => (hmembers i).exists_result? hr rfl
    simp only [result?, failure?, hds, Option.bind_some]
    exact ih ds hs hnone hf

end Prospects

/-- Whether a plan comes to a large join of which a member asks for a value that may have to wait, when
just these values are ready. -/
def Stalls (host : Host) (ready : PendingId → Bool) : {α : Type} → Plan α → Prop
  | _, .done _ | _, .fail _ | _, .exhausted => False
  | _, .await id next =>
    ready id = true ∧ ∃ v, (host.pending id).result = .ok v ∧ (next v).Stalls host ready
  | _, .callInline id next => (next (host.inline id 0)).Stalls host ready
  | _, .callBlock id call next => (next (host.block id 0 call)).Stalls host ready
  | _, .compile source tags next =>
    ∃ nodes, Template.compile source tags = .ok nodes ∧ (next nodes).Stalls host ready
  | _, .join count members next =>
    (Process.sweepLimit < count ∧
      ∃ i id, (members i).Begins host ready id ∧ (host.pending id).manual = true) ∨
    (∃ i, (members i).Stalls host ready) ∨
      ∃ results, ((List.finRange count).mapM fun i => (members i).result? host ready) = some results ∧
        (next results).Stalls host ready
  | _, .inner plan next =>
    plan.Stalls host ready ∨
      ∃ result, plan.result? host ready = some result ∧ (next result).Stalls host ready

/-- Where no value may have to wait, no plan stalls. -/
theorem not_stalls {host : Host} (hm : ∀ id, (host.pending id).manual = false)
    (ready : PendingId → Bool) {α : Type} (plan : Plan α) : ¬ plan.Stalls host ready := by
  induction plan with
  | done | fail | exhausted => exact id
  | await id next ih =>
    rintro ⟨-, v, -, h⟩
    exact ih v h
  | callInline id next ih => exact ih _
  | callBlock id call next ih => exact ih _
  | compile source tags next ih =>
    rintro ⟨nodes, -, h⟩
    exact ih nodes h
  | join count members next ihm ih =>
    rintro (⟨-, i, id, -, h⟩ | ⟨i, h⟩ | ⟨results, -, h⟩)
    · rw [hm id] at h
      cases h
    · exact ihm i h
    · exact ih results h
  | inner plan next ihp ih =>
    rintro (h | ⟨result, -, h⟩)
    · exact ihp h
    · exact ih result h

end Plan
end Stencil
