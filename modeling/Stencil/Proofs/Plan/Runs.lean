import Stencil.Proofs.Plan.Chances
import Stencil.Proofs.Process.Orderly
import Stencil.Proofs.Process.Journal

/-!
# Runs of a plan

What is done from the first deed to the last when a plan comes to a result: one deed after the other,
and in a join those of its members, each at a place of its own, in any order among each other.
-/

namespace Stencil

/-- Whether a deed belongs to coming for a pending value. -/
def Deed.ComesFor (id : PendingId) : Deed → Prop
  | .asks other | .begins other | .obtains other _ => other = id
  | _ => False

/-- The deeds of a join of so many members at a place: its own, and those of its members. -/
def Journal.OfJoin (count : Nat) (place : Place) (told : Journal) : Prop :=
  ∀ part deed, (part, deed) ∈ told →
    part = place ∧ deed = .joins count ∨ ∃ i < count, (i :: place) <:+ part

namespace Plan

variable {α β : Type} {host : Host} {place : Place} {told : Journal}

/-- The plan comes to the result, at the place and with these deeds. -/
def Runs (host : Host) : {α : Type} → Plan α → Place → Journal → α → Prop
  | _, .done result, _, told, wanted => told = [] ∧ wanted = result
  | _, .fail _, _, _, _ | _, .exhausted, _, _, _ => False
  | _, .await id next, place, told, wanted => ∃ waited rest v, told = waited ++ rest ∧
    (∀ part deed, (part, deed) ∈ waited → part = place ∧ deed.ComesFor id) ∧
    (host.pending id).result = .ok v ∧ (next v).Runs host place rest wanted
  | _, .callInline id next, place, told, wanted => ∃ rest n,
    told = (place, .calls (.inline id)) :: rest ∧ (next (host.inline id n)).Runs host place rest wanted
  | _, .callBlock id call next, place, told, wanted => ∃ rest n,
    told = (place, .calls (.block id call.raw call.tags)) :: rest ∧
    (next (host.block id n call)).Runs host place rest wanted
  | _, .compile source tags next, place, told, wanted => ∃ rest nodes,
    told = (place, .compiles source tags) :: rest ∧ Template.compile source tags = .ok nodes ∧
    (next nodes).Runs host place rest wanted
  | _, .join count members next, place, told, wanted => ∃ joined rest results,
    told = joined ++ rest ∧ joined.OfJoin count place ∧
    List.Forall₂ (fun i result =>
        (members i).Runs host (i :: place) (joined.under (i :: place)) result)
      (List.finRange count) results ∧
    (next results).Runs host place rest wanted
  | _, .inner plan next, place, told, wanted => ∃ first rest result, told = first ++ rest ∧
    plan.Runs host place first result ∧ (next result).Runs host place rest wanted

/-- The deeds of a plan that goes on with another, in front and behind. -/
theorem runs_bind {plan : Plan α} {f : α → Plan β} {result : β} :
    (plan.bind f).Runs host place told result ↔
      ∃ front back a, told = front ++ back ∧ plan.Runs host place front a ∧
        (f a).Runs host place back result := by
  induction plan generalizing told with
  | done | fail | exhausted => simp [bind, Runs]
  | await id next ih =>
    simp only [bind, Runs, ih]
    constructor
    · rintro ⟨waited, rest, v, rfl, hw, hv, front, back, a, rfl, hf, hb⟩
      exact ⟨waited ++ front, back, a, by simp, ⟨waited, front, v, rfl, hw, hv, hf⟩, hb⟩
    · rintro ⟨_, back, a, rfl, ⟨waited, front, v, rfl, hw, hv, hf⟩, hb⟩
      exact ⟨waited, front ++ back, v, by simp, hw, hv, front, back, a, rfl, hf, hb⟩
  | callInline id next ih | callBlock id call next ih =>
    simp only [bind, Runs, ih]
    constructor
    · rintro ⟨_, n, rfl, front, back, a, rfl, hf, hb⟩
      exact ⟨_ :: front, back, a, rfl, ⟨front, n, rfl, hf⟩, hb⟩
    · rintro ⟨_, back, a, rfl, ⟨front, n, rfl, hf⟩, hb⟩
      exact ⟨front ++ back, n, rfl, front, back, a, rfl, hf, hb⟩
  | compile source tags next ih =>
    simp only [bind, Runs, ih]
    constructor
    · rintro ⟨_, nodes, rfl, hn, front, back, a, rfl, hf, hb⟩
      exact ⟨_ :: front, back, a, rfl, ⟨front, nodes, rfl, hn, hf⟩, hb⟩
    · rintro ⟨_, back, a, rfl, ⟨front, nodes, rfl, hn, hf⟩, hb⟩
      exact ⟨front ++ back, nodes, rfl, hn, front, back, a, rfl, hf, hb⟩
  | join count members next _ ih =>
    simp only [bind, Runs, ih]
    constructor
    · rintro ⟨joined, _, results, rfl, hj, hr, front, back, a, rfl, hf, hb⟩
      exact ⟨joined ++ front, back, a, by simp, ⟨joined, front, results, rfl, hj, hr, hf⟩, hb⟩
    · rintro ⟨_, back, a, rfl, ⟨joined, front, results, rfl, hj, hr, hf⟩, hb⟩
      exact ⟨joined, front ++ back, results, by simp, hj, hr, front, back, a, rfl, hf, hb⟩
  | inner plan next _ ih =>
    simp only [bind, Runs, ih]
    constructor
    · rintro ⟨first, _, result, rfl, hp, front, back, a, rfl, hf, hb⟩
      exact ⟨first ++ front, back, a, by simp, ⟨first, front, result, rfl, hp, hf⟩, hb⟩
    · rintro ⟨_, back, a, rfl, ⟨first, front, result, rfl, hp, hf⟩, hb⟩
      exact ⟨first, front ++ back, result, by simp, hp, front, back, a, rfl, hf, hb⟩

/-- The deeds of the members of a join, with those of the join itself among them. -/
theorem runs_join_done {count : Nat} {members : Fin count → Plan β} {results : List β} :
    (join count members done).Runs host place told results ↔
      told.OfJoin count place ∧ List.Forall₂ (fun i result =>
          (members i).Runs host (i :: place) (told.under (i :: place)) result)
        (List.finRange count) results := by
  constructor
  · rintro ⟨joined, _, _, rfl, hj, hr, rfl, rfl⟩
    rw [List.append_nil]
    exact ⟨hj, hr⟩
  · rintro ⟨hj, hr⟩
    exact ⟨told, [], results, (List.append_nil _).symm, hj, hr, rfl, rfl⟩

theorem runs_inner_done {plan : Plan β} {result : β} :
    (inner plan done).Runs host place told result ↔ plan.Runs host place told result := by
  constructor
  · rintro ⟨first, _, _, rfl, hp, rfl, rfl⟩
    rwa [List.append_nil]
  · exact fun hp => ⟨told, [], result, (List.append_nil _).symm, hp, rfl, rfl⟩

/-- Each result is that of some item, with the deeds told of a place below. -/
theorem runs_each {ι : Type*} {items : List ι} {f : ι → Plan β} {results : List β}
    (h : (each items f).Runs host place told results) :
    told.OfJoin items.length place ∧ ∀ result ∈ results, ∃ i, ∃ item ∈ items,
      (f item).Runs host (i :: place) (told.under (i :: place)) result := by
  obtain ⟨hj, hr⟩ := runs_join_done.1 h
  refine ⟨hj, fun result hm => ?_⟩
  obtain ⟨n, hn, rfl⟩ := List.mem_iff_getElem.1 hm
  have hlt : n < (List.finRange items.length).length := hr.length_eq ▸ hn
  have hitem : n < items.length := by simpa using hlt
  refine ⟨n, items[n], List.getElem_mem hitem, ?_⟩
  simpa using hr.get hlt hn

/-- What a plan comes to with some deeds, it may come to. -/
theorem gives_of_runs {plan : Plan α} {result : α} (h : plan.Runs host place told result) :
    plan.Gives host result := by
  induction plan generalizing place told with
  | done => exact h.2
  | fail | exhausted => exact h
  | await id next ih =>
    obtain ⟨_, _, v, -, -, hv, h⟩ := h
    exact ⟨v, hv, ih v h⟩
  | callInline id next ih =>
    obtain ⟨_, n, -, h⟩ := h
    exact ⟨n, ih _ h⟩
  | callBlock id call next ih =>
    obtain ⟨_, n, -, h⟩ := h
    exact ⟨n, ih _ h⟩
  | compile source tags next ih =>
    obtain ⟨_, nodes, -, hn, h⟩ := h
    exact ⟨nodes, hn, ih _ h⟩
  | join count members next ihm ih =>
    obtain ⟨_, _, results, -, -, hr, h⟩ := h
    exact ⟨results, hr.imp fun i _ hi => ihm i hi, ih _ h⟩
  | inner plan next ihp ih =>
    obtain ⟨_, _, b, -, hb, h⟩ := h
    exact ⟨b, ihp hb, ih _ h⟩

/-- All deeds of a plan are done at its place or below. -/
theorem suffix_of_runs {plan : Plan α} {result : α} (h : plan.Runs host place told result)
    {part : Place} {deed : Deed} (hd : (part, deed) ∈ told) : place <:+ part := by
  induction plan generalizing place told with
  | done =>
    obtain ⟨rfl, -⟩ := h
    cases hd
  | fail | exhausted => exact h.elim
  | await id next ih =>
    obtain ⟨waited, rest, v, rfl, hw, -, h⟩ := h
    rcases List.mem_append.1 hd with hd | hd
    · exact (hw part deed hd).1 ▸ List.suffix_rfl
    · exact ih v h hd
  | callInline id next ih =>
    obtain ⟨rest, n, rfl, h⟩ := h
    rcases List.mem_cons.1 hd with he | hd
    · cases he
      exact List.suffix_rfl
    · exact ih _ h hd
  | callBlock id call next ih =>
    obtain ⟨rest, n, rfl, h⟩ := h
    rcases List.mem_cons.1 hd with he | hd
    · cases he
      exact List.suffix_rfl
    · exact ih _ h hd
  | compile source tags next ih =>
    obtain ⟨rest, nodes, rfl, -, h⟩ := h
    rcases List.mem_cons.1 hd with he | hd
    · cases he
      exact List.suffix_rfl
    · exact ih _ h hd
  | join count members next ihm ih =>
    obtain ⟨joined, rest, results, rfl, hj, -, h⟩ := h
    rcases List.mem_append.1 hd with hd | hd
    · rcases hj part deed hd with ⟨rfl, -⟩ | ⟨i, -, hp⟩
      · exact List.suffix_rfl
      · exact suffix_of_cons_suffix hp
    · exact ih _ h hd
  | inner plan next ihp ih =>
    obtain ⟨first, rest, b, rfl, hb, h⟩ := h
    rcases List.mem_append.1 hd with hd | hd
    · exact ihp hb hd
    · exact ih _ h hd

end Plan
end Stencil
