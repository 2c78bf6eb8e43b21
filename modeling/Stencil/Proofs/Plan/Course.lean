import Stencil.Plan.Process
import Stencil.Proofs.Process.Bind

/-!
# Courses

A plan that only waits comes for one pending value after the other. Which values those are, and how
far it gets, is told by the values that can yield. However often its process is advanced, and whatever
others do to the store in between, each advance gets just so far and begins just these values.
-/

namespace Stencil

/-- How far a computation gets. -/
inductive Turnout (α : Type)
  | result (result : α)
  | failure (error : Error)
  /-- It waits for a value that cannot yield. -/
  | held (id : PendingId)
  | exhausted

/-- The same end, which is no result. -/
inductive Turnout.Stops {α β : Type} : Turnout α → Turnout β → Prop
  | failure (error : Error) : Stops (.failure error) (.failure error)
  | held (id : PendingId) : Stops (.held id) (.held id)
  | exhausted : Stops .exhausted .exhausted

/-- An advance has got so far. -/
def Turnout.Meets {σ α : Type} : Turnout α → Reached σ α → Prop
  | .result a, .ended outcome => outcome = .ok a
  | .failure error, .ended outcome => outcome = .error error
  | .held _, .waiting _ => True
  | .exhausted, .exhausted => True
  | _, _ => False

namespace Store

/-- Whoever asks a pending value gets an answer. -/
def CanYield (host : Host) (store : Store) (id : PendingId) : Prop :=
  id ∈ store.yielded ∨ store.isReady host id = true

/-- Nothing that has begun is lost, and what can yield can still. -/
structure Grows (host : Host) (before after : Store) : Prop where
  begun : ∀ id ∈ before.begun, id ∈ after.begun
  canYield : ∀ id, before.CanYield host id → after.CanYield host id

theorem canYield_yield {host : Host} {store : Store} {id other : PendingId}
    (h : store.isReady host id = true) :
    (store.yield id).CanYield host other ↔ store.CanYield host other := by
  have hready : (store.yield id).isReady host = store.isReady host := rfl
  have hmem : other ∈ (store.yield id).yielded ↔ id = other ∨ other ∈ store.yielded := by
    simp [yield, Std.TreeSet.mem_insert]
  rw [CanYield, hmem, hready, CanYield]
  constructor
  · rintro ((rfl | hy) | hr)
    · exact .inr h
    · exact .inl hy
    · exact .inr hr
  · rintro (hy | hr)
    · exact .inl (.inr hy)
    · exact .inr hr

end Store

namespace Plan

variable {α β : Type} {host : Host} {ready : PendingId → Prop}

/-- A plan that does nothing but wait for pending values. -/
def OnlyWaits : Plan α → Prop
  | .done _ | .fail _ | .exhausted => True
  | .await _ next => ∀ v, (next v).OnlyWaits
  | _ => False

/-- The values that a plan comes for, in turn, and how far it gets. -/
inductive Course (host : Host) (ready : PendingId → Prop) :
    Plan α → List PendingId → Turnout α → Prop
  | done (result : α) : Course host ready (.done result) [] (.result result)
  | fail (error : Error) : Course host ready (.fail error) [] (.failure error)
  | exhausted : Course host ready .exhausted [] .exhausted
  | held {id : PendingId} {next : Value → Plan α} (h : ¬ ready id) :
    Course host ready (.await id next) [id] (.held id)
  | failure {id : PendingId} {next : Value → Plan α} {error : Error} (h : ready id)
    (fails : (host.pending id).result = .error error) :
    Course host ready (.await id next) [id] (.failure error)
  | await {id : PendingId} {next : Value → Plan α} {v : Value} {ids : List PendingId}
    {turnout : Turnout α} (h : ready id) (yields : (host.pending id).result = .ok v)
    (more : Course host ready (next v) ids turnout) :
    Course host ready (.await id next) (id :: ids) turnout

theorem OnlyWaits.bind {plan : Plan α} {f : α → Plan β} (h : plan.OnlyWaits)
    (hf : ∀ a, (f a).OnlyWaits) : (plan.bind f).OnlyWaits := by
  induction plan with
  | done result => exact hf result
  | fail | exhausted => trivial
  | await id next ih => exact fun v => ih v (h v) hf
  | callInline | callBlock | compile | join | inner => exact h.elim

/-- A plan that only waits has its course, whatever can yield. -/
theorem OnlyWaits.exists_course {plan : Plan α} (h : plan.OnlyWaits) (ready : PendingId → Prop) :
    ∃ ids turnout, plan.Course host ready ids turnout := by
  induction plan with
  | done result => exact ⟨_, _, .done result⟩
  | fail error => exact ⟨_, _, .fail error⟩
  | exhausted => exact ⟨_, _, .exhausted⟩
  | await id next ih =>
    by_cases hr : ready id
    · cases hv : (host.pending id).result with
      | ok v =>
        obtain ⟨ids, turnout, hc⟩ := ih v (h v)
        exact ⟨_, _, .await hr hv hc⟩
      | error error => exact ⟨_, _, .failure hr hv⟩
    · exact ⟨_, _, .held hr⟩
  | callInline | callBlock | compile | join | inner => exact h.elim

namespace Course

variable {plan : Plan α} {ids more : List PendingId} {turnout other : Turnout α} {f : α → Plan β}

theorem unique (h : plan.Course host ready ids turnout) (ho : plan.Course host ready more other) :
    ids = more ∧ turnout = other := by
  induction h generalizing more with
  | done | fail | exhausted =>
    cases ho
    exact ⟨rfl, rfl⟩
  | held hr =>
    cases ho with
    | held => exact ⟨rfl, rfl⟩
    | failure hr' | await hr' => exact absurd hr' hr
  | failure hr fails =>
    cases ho with
    | held hr' => exact absurd hr hr'
    | failure _ fails' =>
      obtain rfl := Except.error.inj (fails.symm.trans fails')
      exact ⟨rfl, rfl⟩
    | await _ yields => cases fails.symm.trans yields
  | await hr yields _ ih =>
    cases ho with
    | held hr' => exact absurd hr hr'
    | failure _ fails => cases yields.symm.trans fails
    | await _ yields' hmore =>
      obtain rfl := Except.ok.inj (yields.symm.trans yields')
      obtain ⟨rfl, rfl⟩ := ih hmore
      exact ⟨rfl, rfl⟩

theorem bind {a : α} {turnout : Turnout β} (h : plan.Course host ready ids (.result a))
    (hf : (f a).Course host ready more turnout) :
    (plan.bind f).Course host ready (ids ++ more) turnout := by
  generalize ht : Turnout.result a = whole at h
  induction h with
  | done result =>
    obtain rfl := Turnout.result.inj ht
    exact hf
  | await hr yields _ ih => exact .await hr yields (ih ht)
  | _ => cases ht

theorem bind_stops {last : Turnout β} (h : plan.Course host ready ids turnout)
    (stops : turnout.Stops last) : (plan.bind f).Course host ready ids last := by
  induction h with
  | done => cases stops
  | fail =>
    cases stops
    exact .fail _
  | exhausted =>
    cases stops
    exact .exhausted
  | held hr =>
    cases stops
    exact .held hr
  | failure hr fails =>
    cases stops
    exact .failure hr fails
  | await hr yields _ ih => exact .await hr yields (ih stops)

/-- A course goes through the first plan and then through what follows its result, or stops there. -/
theorem of_bind {last : Turnout β} (h : (plan.bind f).Course host ready ids last) :
    (∃ a first rest, plan.Course host ready first (.result a) ∧ (f a).Course host ready rest last ∧
        ids = first ++ rest) ∨
      ∃ stopped, plan.Course host ready ids stopped ∧ stopped.Stops last := by
  induction plan generalizing ids with
  | done result => exact .inl ⟨result, [], ids, .done result, h, rfl⟩
  | fail error =>
    cases h
    exact .inr ⟨_, .fail error, .failure error⟩
  | exhausted =>
    cases h
    exact .inr ⟨_, .exhausted, .exhausted⟩
  | await id next ih =>
    cases h with
    | held hr => exact .inr ⟨_, .held hr, .held id⟩
    | failure hr fails => exact .inr ⟨_, .failure hr fails, .failure _⟩
    | await hr yields more =>
      obtain ⟨a, first, rest, hfirst, hrest, rfl⟩ | ⟨stopped, hstop, hs⟩ := ih _ more
      · exact .inl ⟨a, id :: first, rest, .await hr yields hfirst, hrest, rfl⟩
      · exact .inr ⟨stopped, .await hr yields hstop, hs⟩
  | callInline | callBlock | compile | join | inner => cases h

/-- A course that is held has got all but its last value. -/
theorem of_held {id : PendingId} (h : plan.Course host ready ids (.held id)) :
    ∃ passed, ids = passed ++ [id] ∧ ∀ p ∈ passed, ready p := by
  generalize ht : Turnout.held id = last at h
  induction h with
  | held hr =>
    obtain rfl := Turnout.held.inj ht
    exact ⟨[], rfl, by simp⟩
  | @await first next v ids turnout hr yields _ ih =>
    obtain ⟨passed, rfl, hpassed⟩ := ih ht
    exact ⟨first :: passed, rfl, List.forall_mem_cons.2 ⟨hr, hpassed⟩⟩
  | _ => cases ht

end Course

/-- Where the process of a plan stands that has got these values and waits for one more. -/
inductive Stands (host : Host) :
    (plan : Plan α) → List PendingId → PendingId → (plan.process host).State → Prop
  | here {id : PendingId} {next : Value → Plan α} (number : Nat) :
    Stands host (.await id next) [] id (Sum.inl number)
  | later {first id : PendingId} {next : Value → Plan α} {v : Value} {passed : List PendingId}
    {state : ((next v).process host).State} (yields : (host.pending first).result = .ok v)
    (h : Stands host (next v) passed id state) :
    Stands host (.await first next) (first :: passed) id (Sum.inr ⟨v, state⟩)

/-- What an advance of a plan with this course has done. -/
structure Follows (host : Host) (plan : Plan α) (before : Store) (ids : List PendingId)
    (turnout : Turnout α) (advance : Advance (plan.process host).State α) : Prop where
  reached : match turnout with
    | .result result => advance.reached = .ended (.ok result)
    | .failure error => advance.reached = .ended (.error error)
    | .held id => ∃ state passed, advance.reached = .waiting state ∧
        Stands host plan passed id state ∧ ids = passed ++ [id]
    | .exhausted => advance.reached = .exhausted
  begun : ∀ id, id ∈ advance.store.begun ↔ id ∈ before.begun ∨ id ∈ ids
  canYield : ∀ id, advance.store.CanYield host id ↔ before.CanYield host id

theorem Follows.meets {plan : Plan α} {before : Store} {ids : List PendingId} {turnout : Turnout α}
    {advance : Advance (plan.process host).State α} (h : Follows host plan before ids turnout advance) :
    turnout.Meets advance.reached := by
  have hr := h.reached
  cases turnout with
  | result | failure | exhausted =>
    rw [hr]
    simp [Turnout.Meets]
  | held id =>
    obtain ⟨s, -, hr, -⟩ := hr
    rw [hr]
    trivial

/-- A process that has begun the values it has got or waits for, and got those that it has got. -/
def Resumes (host : Host) (plan : Plan α) (state : Option (plan.process host).State)
    (store : Store) : Prop :=
  ∀ s, state = some s → ∃ passed id, Stands host plan passed id s ∧
    (∀ p ∈ passed ++ [id], p ∈ store.begun) ∧ ∀ p ∈ passed, store.CanYield host p

section
variable {id : PendingId} {next : Value → Plan α} {store : Store}

theorem mem_begun_begin_iff (store : Store) (id other : PendingId) :
    other ∈ (store.begin id).begun ↔ other ∈ store.begun ∨ other = id := by
  rw [Store.mem_begun_begin, or_comm, eq_comm]

/-- Whoever asks a value that can yield goes on with its result. -/
theorem value_of_canYield (h : store.CanYield host id) (place : Place)
    (seat : Option (Process.value host id).State) : ∃ news after,
    (Process.value host id).advance place seat store =
        ⟨.ended (host.pending id).result, news, after⟩ ∧
      (∀ other, other ∈ after.begun ↔ other ∈ store.begun ∨ other = id) ∧
      ∀ other, after.CanYield host other ↔ store.CanYield host other := by
  simp only [Process.value]
  split
  · exact ⟨_, _, rfl, mem_begun_begin_iff store id, fun other => Iff.rfl⟩
  · rename_i hy
    have hr : (store.begin id).isReady host id = true := h.resolve_left hy
    rw [if_pos hr]
    exact ⟨_, _, rfl, mem_begun_begin_iff store id, fun other => Store.canYield_yield hr⟩

/-- Whoever asks another waits in a seat. -/
theorem value_of_not_canYield (h : ¬ store.CanYield host id) (place : Place)
    (seat : Option (Process.value host id).State) : ∃ number news after,
    (Process.value host id).advance place seat store = ⟨.waiting number, news, after⟩ ∧
      (∀ other, other ∈ after.begun ↔ other ∈ store.begun ∨ other = id) ∧
      ∀ other, after.CanYield host other ↔ store.CanYield host other := by
  have hy : id ∉ (store.begin id).yielded := fun hy => h (.inl hy)
  have hr : ¬ (store.begin id).isReady host id = true := fun hr => h (.inr hr)
  simp only [Process.value, if_neg hy, if_neg hr]
  cases seat with
  | none => exact ⟨_, _, _, rfl, mem_begun_begin_iff store id, fun other => Iff.rfl⟩
  | some number => exact ⟨_, _, _, rfl, mem_begun_begin_iff store id, fun other => Iff.rfl⟩

/-- While a plan waits for its first value, its advance is one of that value. -/
theorem advance_await {place : Place} {seat : Option (Process.value host id).State}
    {first : Advance (Process.value host id).State Value}
    (h : (Process.value host id).advance place seat store = first) :
    ((Plan.await id next).process host).advance place (seat.map .inl) store =
      match first.reached with
      | .ended (.ok v) =>
        (((next v).process host).advance place none first.store).within (.inr ⟨v, ·⟩) first.news
      | .ended (.error error) => ⟨.ended (.error error), first.news, first.store⟩
      | .exhausted => ⟨.exhausted, first.news, first.store⟩
      | .waiting number => ⟨.waiting (.inl number), first.news, first.store⟩ := by
  have hbind : ((Plan.await id next).process host).advance place (seat.map .inl) store = _ :=
    Process.Lawful.advance_bind_inl seat
  rw [h] at hbind
  obtain ⟨(_ | _) | _ | _, news, after⟩ := first <;> exact hbind

theorem resumes_none (plan : Plan α) (store : Store) : Resumes host plan none store := by
  rintro s ⟨⟩

/-- A plan that waits stands at its first value or after it. -/
theorem Resumes.cases {state : Option ((Plan.await id next).process host).State}
    (h : Resumes host (.await id next) state store) :
    (∃ seat : Option (Process.value host id).State, state = seat.map .inl) ∨
      ∃ v, (host.pending id).result = .ok v ∧ id ∈ store.begun ∧ store.CanYield host id ∧
        ∃ s : ((next v).process host).State, state = some (.inr ⟨v, s⟩) ∧
          Resumes host (next v) (some s) store := by
  cases state with
  | none => exact .inl ⟨none, rfl⟩
  | some s =>
    obtain ⟨passed, last, hs, hbegun, hcan⟩ := h s rfl
    cases hs with
    | here number => exact .inl ⟨some number, rfl⟩
    | @later _ _ _ v passed s yields hs =>
      rw [List.cons_append, List.forall_mem_cons] at hbegun
      rw [List.forall_mem_cons] at hcan
      refine .inr ⟨v, yields, hbegun.1, hcan.1, s, rfl, ?_⟩
      rintro _ ⟨⟩
      exact ⟨passed, last, hs, hbegun.2, hcan.2⟩

/-- What the rest of a plan has done, its first value being there, the plan has done. -/
theorem Follows.await {v : Value} {ids : List PendingId} {turnout : Turnout α} {before : Store}
    {advance : Advance ((next v).process host).State α} (yields : (host.pending id).result = .ok v)
    (h : Follows host (next v) store ids turnout advance)
    (begun : ∀ other, other ∈ store.begun ↔ other ∈ before.begun ∨ other = id)
    (canYield : ∀ other, store.CanYield host other ↔ before.CanYield host other) (news : Bool) :
    Follows host (.await id next) before (id :: ids) turnout
      (advance.within (.inr ⟨v, ·⟩) news) where
  reached := by
    have hr := h.reached
    cases turnout with
    | result result => simp only [Advance.within, hr]
    | failure error => simp only [Advance.within, hr]
    | held other =>
      obtain ⟨s, passed, hr, hs, rfl⟩ := hr
      exact ⟨.inr ⟨v, s⟩, id :: passed, by simp only [Advance.within, hr], .later yields hs, rfl⟩
    | exhausted => simp only [Advance.within, hr]
  begun other := by
    have hb := (h.begun other).trans (or_congr_left (begun other))
    rw [List.mem_cons, ← or_assoc]
    exact hb
  canYield other := (h.canYield other).trans (canYield other)

end

/-- An advance of a plan goes through its course. -/
theorem Course.follows {plan : Plan α} {ids : List PendingId} {turnout : Turnout α} {store : Store}
    (h : plan.Course host (store.CanYield host) ids turnout) (place : Place)
    {state : Option (plan.process host).State} (resumes : Resumes host plan state store) :
    Follows host plan store ids turnout ((plan.process host).advance place state store) := by
  generalize hready : store.CanYield host = ready at h
  induction h generalizing store with
  | done result => exact ⟨rfl, by simp [process, Process.ended, Process.act], fun id => Iff.rfl⟩
  | fail error => exact ⟨rfl, by simp [process, Process.ended, Process.act], fun id => Iff.rfl⟩
  | exhausted => exact ⟨rfl, by simp [process, Process.exhausted], fun id => Iff.rfl⟩
  | @held id next hr =>
    subst hready
    obtain ⟨seat, rfl⟩ | ⟨v, -, -, hcan, -⟩ := resumes.cases
    · obtain ⟨number, news, after, hfirst, hbegun, hcan⟩ := value_of_not_canYield hr place seat
      rw [advance_await hfirst]
      exact ⟨⟨.inl number, [], rfl, .here number, rfl⟩, by simpa using hbegun, hcan⟩
    · exact absurd hcan hr
  | @failure id next error hr fails =>
    subst hready
    obtain ⟨seat, rfl⟩ | ⟨v, hv, -⟩ := resumes.cases
    · obtain ⟨news, after, hfirst, hbegun, hcan⟩ := value_of_canYield hr place seat
      rw [fails] at hfirst
      rw [advance_await hfirst]
      exact ⟨rfl, by simpa using hbegun, hcan⟩
    · cases fails.symm.trans hv
  | @await id next v ids turnout hr yields more ih =>
    obtain ⟨seat, rfl⟩ | ⟨w, hw, hbegun, hcan, s, rfl, hs⟩ := resumes.cases
    · obtain ⟨news, after, hfirst, hbegun, hcan⟩ := value_of_canYield (hready ▸ hr) place seat
      rw [yields] at hfirst
      rw [advance_await hfirst]
      have hrest := ih (resumes_none (next v) after) ((funext fun id => propext (hcan id)).trans hready)
      exact hrest.await yields hbegun hcan news
    · obtain rfl : v = w := Except.ok.inj (yields.symm.trans hw)
      refine (ih hs hready).await yields (fun other => ?_) (fun other => Iff.rfl) false
      exact ⟨.inl, fun h => h.elim (fun h => h) fun h => h ▸ hbegun⟩

/-- The advances of the process of a plan, each with the store that it finds: from the start, and
again from where the one before has stopped. Meanwhile it may hear things, and others may make more of
the store. -/
inductive Lives (host : Host) (plan : Plan α) (place : Place) :
    Store → Advance (plan.process host).State α → Prop
  | start (store : Store) : Lives host plan place store (plan.advance host place store)
  | again {before after : Store} {advance : Advance (plan.process host).State α}
    {state : (plan.process host).State} (h : Lives host plan place before advance)
    (waits : advance.reached = .waiting state) (heard : List (List Nat))
    (grows : advance.store.Grows host after) :
    Lives host plan place after ((plan.process host).advance place
      (some (heard.foldl (fun state path => (plan.process host).hear path state) state)) after)

theorem Stands.hear {plan : Plan α} {passed : List PendingId} {id : PendingId}
    {state : (plan.process host).State} (h : Stands host plan passed id state) (path : List Nat) :
    Stands host plan passed id ((plan.process host).hear path state) := by
  induction h with
  | here number => exact .here number
  | later yields _ ih => exact .later yields ih

/-- Every advance in the life of a plan that only waits goes through its course. -/
theorem Lives.follows {plan : Plan α} {place : Place} {store : Store}
    {advance : Advance (plan.process host).State α} (h : Lives host plan place store advance)
    (waits : plan.OnlyWaits) {ids : List PendingId} {turnout : Turnout α}
    (course : plan.Course host (store.CanYield host) ids turnout) :
    Follows host plan store ids turnout advance := by
  induction h generalizing ids turnout with
  | start store => exact course.follows place (resumes_none plan store)
  | @again before after advance state _ hstate heard grows ih =>
    refine course.follows place ?_
    rintro _ ⟨⟩
    obtain ⟨earlier, turnout, hearlier⟩ := @OnlyWaits.exists_course _ host _ waits (before.CanYield host)
    have hfollows := ih hearlier
    have hreached := hfollows.reached
    cases turnout with
    | held id =>
      obtain ⟨s, passed, hs, hstands, rfl⟩ := hreached
      obtain rfl : state = s := by simpa using hstate.symm.trans hs
      have hheard : Stands host plan passed id
          (heard.foldl (fun state path => (plan.process host).hear path state) state) := by
        clear hstate hs
        induction heard generalizing state with
        | nil => exact hstands
        | cons path heard ih => exact ih (hstands.hear path)
      obtain ⟨others, hothers, hcan⟩ := hearlier.of_held
      obtain ⟨rfl, -⟩ := List.append_inj' hothers rfl
      refine ⟨passed, id, hheard, fun p hp => ?_, fun p hp => ?_⟩
      · exact grows.begun p ((hfollows.begun p).2 (.inr hp))
      · exact grows.canYield p ((hfollows.canYield p).2 (hcan p hp))
    | _ => cases hstate.symm.trans hreached

end Plan
end Stencil
