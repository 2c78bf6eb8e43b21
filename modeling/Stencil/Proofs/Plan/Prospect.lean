import Mathlib.Data.List.Forall2
import Mathlib.Data.List.FinRange
import Stencil.Plan.Basic
import Stencil.Template.Compile

/-!
# Prospects of a plan

What a plan comes to when certain pending values are ready and the others never come: its result, if
it gets that far, the values it begins, the sources it compiles and the faults it meets. A prospect
knows nothing of turns, seats or the order of releases. More ready values only add to it, and a plan
that has its result meets no fault.
-/

namespace Stencil

theorem mapM_eq_some_iff {ι β : Type*} {f : ι → Option β} {is : List ι} {results : List β} :
    is.mapM f = some results ↔ List.Forall₂ (fun i result => f i = some result) is results := by
  induction is generalizing results with
  | nil => simp [eq_comm]
  | cons i is ih =>
    simp only [List.mapM_cons, Option.bind_eq_bind, Option.bind_eq_some_iff, Option.pure_def,
      Option.some.injEq, ih]
    constructor
    · rintro ⟨result, hi, results, his, rfl⟩
      exact .cons hi his
    · intro h
      cases h with
      | cons hi his => exact ⟨_, hi, _, his, rfl⟩

theorem mapM_eq_some_map {ι β : Type*} {f : ι → Option β} {result : ι → β}
    (h : ∀ i, f i = some (result i)) (is : List ι) : is.mapM f = some (is.map result) := by
  rw [mapM_eq_some_iff, List.forall₂_map_right_iff, List.forall₂_same]
  exact fun i _ => h i

theorem mapM_getLeft?_inl {β γ : Type*} (results : List β) :
    (results.map (.inl (β := γ))).mapM Sum.getLeft? = some results := by
  rw [mapM_eq_some_iff, List.forall₂_map_left_iff, List.forall₂_same]
  exact fun _ _ => rfl

theorem exists_of_mem_of_forall₂ {ι β : Type*} {R : ι → β → Prop} {is : List ι} {entries : List β}
    (h : List.Forall₂ R is entries) {i : ι} (hi : i ∈ is) : ∃ entry ∈ entries, R i entry := by
  induction h with
  | nil => cases hi
  | cons hr _ ih =>
    rcases List.mem_cons.1 hi with rfl | hi
    · exact ⟨_, List.mem_cons_self .., hr⟩
    · obtain ⟨entry, he, hr⟩ := ih hi
      exact ⟨entry, List.mem_cons_of_mem _ he, hr⟩

theorem exists_of_mem_of_mapM {ι β : Type*} {f : ι → Option β} {is : List ι} {results : List β}
    (h : is.mapM f = some results) {i : ι} (hi : i ∈ is) : ∃ result, f i = some result := by
  obtain ⟨result, -, hr⟩ := exists_of_mem_of_forall₂ (mapM_eq_some_iff.1 h) hi
  exact ⟨result, hr⟩

namespace Plan

variable {α β : Type} {host : Host} {ready more : PendingId → Bool}

/-- The result of a plan when just these values are ready, if it gets that far. Lambdas answer as
they do at the first call. -/
def result? (host : Host) (ready : PendingId → Bool) : {α : Type} → Plan α → Option α
  | _, .done result => some result
  | _, .fail _ => none
  | _, .exhausted => none
  | _, .await id next =>
    if ready id then
      match (host.pending id).result with
      | .ok v => (next v).result? host ready
      | .error _ => none
    else none
  | _, .callInline id next => (next (host.inline id 0)).result? host ready
  | _, .callBlock id call next => (next (host.block id 0 call)).result? host ready
  | _, .compile source tags next =>
    match Template.compile source tags with
    | .ok nodes => (next nodes).result? host ready
    | .error _ => none
  | _, .join count members next =>
    ((List.finRange count).mapM fun i => (members i).result? host ready).bind
      fun results => (next results).result? host ready
  | _, .inner plan next =>
    (plan.result? host ready).bind fun result => (next result).result? host ready

/-- The pending values that a plan begins when just these values are ready. -/
def Begins (host : Host) (ready : PendingId → Bool) (id : PendingId) : {α : Type} → Plan α → Prop
  | _, .done _ | _, .fail _ | _, .exhausted => False
  | _, .await awaited next =>
    id = awaited ∨ (ready awaited = true ∧
      ∃ v, (host.pending awaited).result = .ok v ∧ (next v).Begins host ready id)
  | _, .callInline called next => (next (host.inline called 0)).Begins host ready id
  | _, .callBlock called call next => (next (host.block called 0 call)).Begins host ready id
  | _, .compile source tags next =>
    ∃ nodes, Template.compile source tags = .ok nodes ∧ (next nodes).Begins host ready id
  | _, .join count members next =>
    (∃ i, (members i).Begins host ready id) ∨
      ∃ results, ((List.finRange count).mapM fun i => (members i).result? host ready) = some results ∧
        (next results).Begins host ready id
  | _, .inner plan next =>
    plan.Begins host ready id ∨
      ∃ result, plan.result? host ready = some result ∧ (next result).Begins host ready id

/-- The faults that a plan can meet when just these values are ready. -/
def Faults (host : Host) (ready : PendingId → Bool) (error : Error) : {α : Type} → Plan α → Prop
  | _, .done _ | _, .exhausted => False
  | _, .fail own => error = own
  | _, .await id next =>
    ready id = true ∧ ((host.pending id).result = .error error ∨
      ∃ v, (host.pending id).result = .ok v ∧ (next v).Faults host ready error)
  | _, .callInline called next => (next (host.inline called 0)).Faults host ready error
  | _, .callBlock called call next => (next (host.block called 0 call)).Faults host ready error
  | _, .compile source tags next =>
    Template.compile source tags = .error error ∨
      ∃ nodes, Template.compile source tags = .ok nodes ∧ (next nodes).Faults host ready error
  | _, .join count members next =>
    (∃ i, (members i).Faults host ready error) ∨
      ∃ results, ((List.finRange count).mapM fun i => (members i).result? host ready) = some results ∧
        (next results).Faults host ready error
  | _, .inner plan next =>
    plan.Faults host ready error ∨
      ∃ result, plan.result? host ready = some result ∧ (next result).Faults host ready error

/-- The sources that a plan comes to compile when just these values are ready. -/
def Reads (host : Host) (ready : PendingId → Bool) (source : Text) (tags : Tags) :
    {α : Type} → Plan α → Prop
  | _, .done _ | _, .fail _ | _, .exhausted => False
  | _, .await id next =>
    ready id = true ∧
      ∃ v, (host.pending id).result = .ok v ∧ (next v).Reads host ready source tags
  | _, .callInline called next => (next (host.inline called 0)).Reads host ready source tags
  | _, .callBlock called call next => (next (host.block called 0 call)).Reads host ready source tags
  | _, .compile text pair next =>
    (source = text ∧ tags = pair) ∨
      ∃ nodes, Template.compile text pair = .ok nodes ∧ (next nodes).Reads host ready source tags
  | _, .join count members next =>
    (∃ i, (members i).Reads host ready source tags) ∨
      ∃ results, ((List.finRange count).mapM fun i => (members i).result? host ready) = some results ∧
        (next results).Reads host ready source tags
  | _, .inner plan next =>
    plan.Reads host ready source tags ∨
      ∃ result, plan.result? host ready = some result ∧ (next result).Reads host ready source tags

-- automation computes a prospect from the shape of the plan
attribute [grind =] bind result? Begins Faults Reads

theorem result?_bind (plan : Plan α) (f : α → Plan β) :
    (plan.bind f).result? host ready =
      (plan.result? host ready).bind fun a => (f a).result? host ready := by
  induction plan with
  | done | fail | exhausted => rfl
  | await id next ih =>
    simp only [bind, result?]
    split
    · split
      · exact ih _ f
      · rfl
    · rfl
  | callInline id next ih => exact ih _ f
  | callBlock id call next ih => exact ih _ f
  | compile source tags next ih =>
    simp only [bind, result?]
    split
    · exact ih _ f
    · rfl
  | join count members next _ ih => simp only [bind, result?, ih, Option.bind_assoc]
  | inner plan next _ ih => simp only [bind, result?, ih, Option.bind_assoc]

theorem begins_bind {plan : Plan α} {f : α → Plan β} {id : PendingId} :
    (plan.bind f).Begins host ready id ↔ plan.Begins host ready id ∨
      ∃ a, plan.result? host ready = some a ∧ (f a).Begins host ready id := by
  induction plan with
  | done | fail | exhausted => simp [bind, Begins, result?]
  | await awaited next ih =>
    simp only [bind, Begins, result?, ih]
    cases (host.pending awaited).result <;> cases ready awaited <;> simp [or_assoc]
  | callInline called next ih => simp only [bind, Begins, result?, ih]
  | callBlock called call next ih => simp only [bind, Begins, result?, ih]
  | compile source tags next ih =>
    simp only [bind, Begins, result?, ih]
    cases Template.compile source tags <;> simp
  | join count members next _ ih =>
    simp only [bind, Begins, result?, ih, Option.bind_eq_some_iff]
    grind
  | inner plan next _ ih =>
    simp only [bind, Begins, result?, ih, Option.bind_eq_some_iff]
    grind

theorem faults_bind {plan : Plan α} {f : α → Plan β} {error : Error} :
    (plan.bind f).Faults host ready error ↔ plan.Faults host ready error ∨
      ∃ a, plan.result? host ready = some a ∧ (f a).Faults host ready error := by
  induction plan with
  | done | fail | exhausted => simp [bind, Faults, result?]
  | await id next ih =>
    simp only [bind, Faults, result?, ih]
    cases (host.pending id).result <;> cases ready id <;> simp
  | callInline called next ih => simp only [bind, Faults, result?, ih]
  | callBlock called call next ih => simp only [bind, Faults, result?, ih]
  | compile source tags next ih =>
    simp only [bind, Faults, result?, ih]
    cases Template.compile source tags <;> simp
  | join count members next _ ih =>
    simp only [bind, Faults, result?, ih, Option.bind_eq_some_iff]
    grind
  | inner plan next _ ih =>
    simp only [bind, Faults, result?, ih, Option.bind_eq_some_iff]
    grind

section
variable {count : Nat} {members : Fin count → Plan β}

theorem result?_join_done : (Plan.join count members .done).result? host ready =
    (List.finRange count).mapM fun i => (members i).result? host ready := by
  simp [result?]

theorem result?_join_of_none {i : Fin count} (h : (members i).result? host ready = none) :
    (Plan.join count members .done).result? host ready = none := by
  rw [result?_join_done]
  cases hm : (List.finRange count).mapM fun j => (members j).result? host ready with
  | none => rfl
  | some results =>
    obtain ⟨_, hr⟩ := exists_of_mem_of_mapM hm (List.mem_finRange i)
    rw [h] at hr
    cases hr

theorem begins_join_done {id : PendingId} :
    (Plan.join count members .done).Begins host ready id ↔
      ∃ i, (members i).Begins host ready id := by
  simp [Begins]

theorem faults_join_done {error : Error} :
    (Plan.join count members .done).Faults host ready error ↔
      ∃ i, (members i).Faults host ready error := by
  simp [Faults]

end

section Each
variable {ι : Type*} {items : List ι} {f : ι → Plan β}

theorem result?_each : (each items f).result? host ready =
    items.mapM fun item => (f item).result? host ready := by
  have hall : ((List.finRange items.length).map fun i => items[i]) = items :=
    List.map_getElem_finRange items
  rw [each, result?_join_done]
  conv_rhs => rw [← hall, List.mapM_map]
  rfl

theorem begins_each {id : PendingId} :
    (each items f).Begins host ready id ↔ ∃ item ∈ items, (f item).Begins host ready id := by
  rw [each, begins_join_done]
  exact (List.exists_mem_iff_get (p := fun item => (f item).Begins host ready id)).symm

theorem faults_each {error : Error} :
    (each items f).Faults host ready error ↔ ∃ item ∈ items, (f item).Faults host ready error := by
  rw [each, faults_join_done]
  exact (List.exists_mem_iff_get (p := fun item => (f item).Faults host ready error)).symm

end Each

section
variable {plan : Plan α}

theorem result?_mono (h : ∀ id, ready id = true → more id = true) {result : α}
    (hr : plan.result? host ready = some result) : plan.result? host more = some result := by
  induction plan with
  | done | fail | exhausted => exact hr
  | await id next ih =>
    simp only [result?] at hr ⊢
    split at hr
    · rw [if_pos (h id ‹_›)]
      split at hr
      · exact ih _ hr
      · cases hr
    · cases hr
  | callInline id next ih => exact ih _ hr
  | callBlock id call next ih => exact ih _ hr
  | compile source tags next ih =>
    simp only [result?] at hr ⊢
    split at hr
    · exact ih _ hr
    · cases hr
  | join count members next ihm ih =>
    simp only [result?, Option.bind_eq_some_iff, mapM_eq_some_iff] at hr ⊢
    obtain ⟨results, hm, hn⟩ := hr
    exact ⟨results, hm.imp fun i _ => ihm i, ih _ hn⟩
  | inner plan next ihp ih =>
    simp only [result?, Option.bind_eq_some_iff] at hr ⊢
    obtain ⟨inner, hp, hn⟩ := hr
    exact ⟨inner, ihp hp, ih _ hn⟩

theorem members_result?_mono {count : Nat} {members : Fin count → Plan β} {results : List β}
    (h : ∀ id, ready id = true → more id = true)
    (hm : ((List.finRange count).mapM fun i => (members i).result? host ready) = some results) :
    ((List.finRange count).mapM fun i => (members i).result? host more) = some results :=
  mapM_eq_some_iff.2 ((mapM_eq_some_iff.1 hm).imp fun _ _ => result?_mono h)

/-- More ready values let a plan begin more. -/
theorem Begins.mono (h : ∀ id, ready id = true → more id = true) {id : PendingId}
    (hb : plan.Begins host ready id) : plan.Begins host more id := by
  induction plan with
  | done | fail | exhausted => exact hb
  | await awaited next ih =>
    rcases hb with rfl | ⟨hr, v, hv, hb⟩
    · exact .inl rfl
    · exact .inr ⟨h _ hr, v, hv, ih v hb⟩
  | callInline called next ih => exact ih _ hb
  | callBlock called call next ih => exact ih _ hb
  | compile source tags next ih =>
    obtain ⟨nodes, hn, hb⟩ := hb
    exact ⟨nodes, hn, ih _ hb⟩
  | join count members next ihm ih =>
    rcases hb with ⟨i, hb⟩ | ⟨results, hm, hb⟩
    · exact .inl ⟨i, ihm i hb⟩
    · exact .inr ⟨results, members_result?_mono h hm, ih _ hb⟩
  | inner plan next ihp ih =>
    rcases hb with hb | ⟨result, hp, hb⟩
    · exact .inl (ihp hb)
    · exact .inr ⟨result, result?_mono h hp, ih _ hb⟩

theorem Faults.mono (h : ∀ id, ready id = true → more id = true) {error : Error}
    (hf : plan.Faults host ready error) : plan.Faults host more error := by
  induction plan with
  | done | fail | exhausted => exact hf
  | await id next ih =>
    obtain ⟨hr, hf | ⟨v, hv, hf⟩⟩ := hf
    · exact ⟨h _ hr, .inl hf⟩
    · exact ⟨h _ hr, .inr ⟨v, hv, ih v hf⟩⟩
  | callInline called next ih => exact ih _ hf
  | callBlock called call next ih => exact ih _ hf
  | compile source tags next ih =>
    rcases hf with hf | ⟨nodes, hn, hf⟩
    · exact .inl hf
    · exact .inr ⟨nodes, hn, ih _ hf⟩
  | join count members next ihm ih =>
    rcases hf with ⟨i, hf⟩ | ⟨results, hm, hf⟩
    · exact .inl ⟨i, ihm i hf⟩
    · exact .inr ⟨results, members_result?_mono h hm, ih _ hf⟩
  | inner plan next ihp ih =>
    rcases hf with hf | ⟨result, hp, hf⟩
    · exact .inl (ihp hf)
    · exact .inr ⟨result, result?_mono h hp, ih _ hf⟩

/-- A plan that has its result begins nothing more, whatever else is ready. -/
theorem begins_of_result? (h : ∀ id, ready id = true → more id = true) {result : α}
    (hr : plan.result? host ready = some result) {id : PendingId}
    (hb : plan.Begins host more id) : plan.Begins host ready id := by
  induction plan with
  | done | fail | exhausted => exact hb
  | await awaited next ih =>
    simp only [result?] at hr
    split at hr
    · split at hr
      · rename_i ha _ v hv
        rcases hb with rfl | ⟨-, w, hw, hb⟩
        · exact .inl rfl
        · obtain rfl : v = w := by simpa [hv] using hw
          exact .inr ⟨ha, v, hv, ih v hr hb⟩
      · cases hr
    · cases hr
  | callInline called next ih => exact ih _ hr hb
  | callBlock called call next ih => exact ih _ hr hb
  | compile source tags next ih =>
    obtain ⟨nodes, hn, hb⟩ := hb
    simp only [result?, hn] at hr
    exact ⟨nodes, hn, ih _ hr hb⟩
  | join count members next ihm ih =>
    simp only [result?, Option.bind_eq_some_iff] at hr
    obtain ⟨results, hm, hn⟩ := hr
    rcases hb with ⟨i, hb⟩ | ⟨others, hm', hb⟩
    · obtain ⟨_, hi⟩ := exists_of_mem_of_mapM hm (List.mem_finRange i)
      exact .inl ⟨i, ihm i hi hb⟩
    · obtain rfl : results = others := by
        simpa [members_result?_mono h hm] using hm'
      exact .inr ⟨results, hm, ih _ hn hb⟩
  | inner plan next ihp ih =>
    simp only [result?, Option.bind_eq_some_iff] at hr
    obtain ⟨inner, hp, hn⟩ := hr
    rcases hb with hb | ⟨other, hp', hb⟩
    · exact .inl (ihp hp hb)
    · obtain rfl : inner = other := by
        simpa [result?_mono h hp] using hp'
      exact .inr ⟨inner, hp, ih _ hn hb⟩

/-- A plan that has its result has met no fault. -/
theorem not_faults_of_result? {result : α} (hr : plan.result? host ready = some result)
    (error : Error) : ¬ plan.Faults host ready error := by
  induction plan with
  | done => exact id
  | fail | exhausted => cases hr
  | await id next ih =>
    simp only [result?] at hr
    split at hr
    · split at hr
      · rename_i v hv
        rintro ⟨-, hf | ⟨w, hw, hf⟩⟩
        · simp [hv] at hf
        · obtain rfl : v = w := by simpa [hv] using hw
          exact ih v hr hf
      · cases hr
    · cases hr
  | callInline called next ih => exact ih _ hr
  | callBlock called call next ih => exact ih _ hr
  | compile source tags next ih =>
    rintro (hf | ⟨nodes, hn, hf⟩)
    · simp [result?, hf] at hr
    · simp only [result?, hn] at hr
      exact ih _ hr hf
  | join count members next ihm ih =>
    simp only [result?, Option.bind_eq_some_iff] at hr
    obtain ⟨results, hm, hn⟩ := hr
    rintro (⟨i, hf⟩ | ⟨others, hm', hf⟩)
    · obtain ⟨_, hi⟩ := exists_of_mem_of_mapM hm (List.mem_finRange i)
      exact ihm i hi hf
    · obtain rfl : results = others := by simpa [hm] using hm'
      exact ih _ hn hf
  | inner plan next ihp ih =>
    simp only [result?, Option.bind_eq_some_iff] at hr
    obtain ⟨inner, hp, hn⟩ := hr
    rintro (hf | ⟨other, hp', hf⟩)
    · exact ihp hp hf
    · obtain rfl : inner = other := by simpa [hp] using hp'
      exact ih _ hn hf

end

end Plan
end Stencil
