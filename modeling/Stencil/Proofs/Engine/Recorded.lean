import Stencil.Proofs.Engine.Failure
import Stencil.Proofs.Plan.Recorded

/-!
# Recorded runs

In a run, what is told of the places of a render is all that is done on its behalf. When it is over
with a text, these are the deeds of a run of its plan. An action that does not clear the cache leaves
in it what it found, and what it tells to compile.
-/

namespace Stencil

open Process (Stood)

variable {host : Host}

namespace Watched

variable {plan : Plan Text} {number : Nat} {store : Store} {journal more : Journal}
  {watched : Watched host}

/-- What the journal of a run tells of the render of a plan. -/
inductive Noted (plan : Plan Text) (number : Nat) (journal : Journal) : Watched host → Prop
  | underway {state : Option (plan.process host).State} {news : Bool}
    (stood : Stood (plan.recorded host).Stands [number] state (journal.under [number])) :
    Noted plan number journal (.underway plan state news)
  | finished {text : Text} (runs : plan.Runs host [number] (journal.under [number]) text) :
    Noted plan number journal (.finished (.ok text))
  | failed {error : Error} : Noted plan number journal (.finished (.error error))
  | exhausted : Noted plan number journal .exhausted

/-- What others do is told of other places. -/
theorem Noted.congr (h : Noted plan number journal watched)
    (hm : ∀ part deed, (part, deed) ∈ more → ¬ [number] <:+ part) :
    Noted plan number (journal ++ more) watched := by
  have hunder : (journal ++ more).under [number] = journal.under [number] :=
    Journal.under_append_of_not hm
  cases h with
  | underway stood => exact .underway (hunder ▸ stood)
  | finished runs => exact .finished (hunder ▸ runs)
  | failed => exact .failed
  | exhausted => exact .exhausted

theorem Noted.advance (h : Noted plan number journal watched) (hs : store.cache.Sound) :
    let next := watched.advance number store
    Noted plan number (journal ++ next.2.2) next.1 ∧
      next.2.1.cache = store.cache.fetchAll next.2.2.compiled ∧
      ∀ part deed, (part, deed) ∈ next.2.2 → [number] <:+ part := by
  have hnothing : ∀ {watched : Watched host}, Noted plan number journal watched →
      Noted plan number (journal ++ []) watched := fun h => (List.append_nil journal).symm ▸ h
  have hnone : ∀ part deed, (part, deed) ∈ ([] : Journal) → [number] <:+ part := fun _ _ hm =>
    absurd hm List.not_mem_nil
  cases h with
  | @underway state news stood =>
    cases news with
    | false => exact ⟨hnothing (.underway stood), rfl, hnone⟩
    | true =>
      have hr := (plan.recorded host).records [number] state hs stood
      have hcache := (plan.recorded host).cache_eq [number] state store
      have hwithin : ∀ part deed, (part, deed) ∈ (plan.account host).tell [number] state store →
          [number] <:+ part := fun _ _ => (plan.recorded host).within
      rw [← Journal.under_append_of_within hwithin] at hr
      simp only [Watched.advance]
      generalize (plan.process host).advance [number] state store = advance at hr hcache
      obtain ⟨reached, news, after⟩ := advance
      cases reached with
      | ended outcome =>
        cases outcome with
        | ok text => exact ⟨.finished hr, hcache, hwithin⟩
        | error error => exact ⟨.failed, hcache, hwithin⟩
      | exhausted => exact ⟨.exhausted, hcache, hwithin⟩
      | waiting later => exact ⟨.underway hr, hcache, hwithin⟩
  | finished runs => exact ⟨hnothing (.finished runs), rfl, hnone⟩
  | failed => exact ⟨.failed, rfl, hnone⟩
  | exhausted => exact ⟨.exhausted, rfl, hnone⟩

theorem Noted.hear (h : Noted plan number journal watched) (path : List Nat) :
    Noted plan number journal (watched.hear path) := by
  cases h with
  | @underway state news stood =>
    refine .underway ?_
    cases state with
    | none => exact stood
    | some s => exact (plan.recorded host).stands_hear path stood
  | finished runs => exact .finished runs
  | failed => exact .failed
  | exhausted => exact .exhausted

theorem Noted.stop (h : Noted plan number journal watched) :
    Noted plan number journal watched.stop := by
  rw [Watched.stop]
  split
  · exact .exhausted
  · exact h

end Watched

namespace Chronicle

variable {plans : List (Plan Text)} {number : Nat} {store : Store} {journal more : Journal}
  {renders : List (Watched host)} {chronicle : Chronicle host}

/-- Renders of these plans, from a number on. -/
abbrev AllNoted (plans : List (Plan Text)) (number : Nat) (journal : Journal)
    (renders : List (Watched host)) : Prop :=
  List.Forall₂ (fun numbered watched => watched.Noted numbered.1 numbered.2 journal)
    (plans.zipIdx number) renders

theorem AllNoted.congr (h : AllNoted plans number journal renders)
    (hm : ∀ n, number ≤ n → ∀ part deed, (part, deed) ∈ more → ¬ [n] <:+ part) :
    AllNoted plans number (journal ++ more) renders :=
  forall₂_zipIdx_imp h fun numbered hn _ hw => hw.congr (hm numbered.2 hn)

/-- What a part of a run adds to the journal and to the cache. -/
structure Notes (plans : List (Plan Text)) (number : Nat) (journal : Journal) (store : Store)
    (next : List (Watched host) × Store × Journal) : Prop where
  noted : AllNoted plans number (journal ++ next.2.2) next.1
  cache_eq : next.2.1.cache = store.cache.fetchAll next.2.2.compiled
  within : ∀ part deed, (part, deed) ∈ next.2.2 → ∃ n, number ≤ n ∧ [n] <:+ part

theorem notes_round (hs : store.cache.Sound) (h : AllNoted plans number journal renders) :
    Notes plans number journal store (round number renders store) := by
  induction plans generalizing number renders store journal with
  | nil =>
    cases h
    exact ⟨.nil, rfl, fun _ _ hm => absurd hm List.not_mem_nil⟩
  | cons plan plans ih =>
    cases h with
    | @cons _ watched _ renders hfirst hrest =>
      obtain ⟨hadvanced, hcache, hwithin⟩ := hfirst.advance hs
      have hsound : (watched.advance number store).2.1.cache.Sound := hcache ▸ hs.fetchAll _
      -- the first render is none of the others
      have hothers : AllNoted plans (number + 1) (journal ++ (watched.advance number store).2.2)
          renders := by
        refine AllNoted.congr hrest fun n hn part deed hm hp => ?_
        have he : n = number := eq_of_cons_suffix hp (hwithin part deed hm)
        omega
      have hgo := ih hsound hothers
      refine ⟨?_, ?_, fun part deed hm => ?_⟩
      · simp only [round, ← List.append_assoc]
        refine .cons (hadvanced.congr fun part deed hm hp => ?_) hgo.noted
        obtain ⟨n, hn, hp'⟩ := hgo.within part deed hm
        have he : n = number := eq_of_cons_suffix hp' hp
        omega
      · simp only [round]
        rw [Journal.compiled_append, Cache.fetchAll_append, ← hcache]
        exact hgo.cache_eq
      · rcases List.mem_append.1 hm with hm | hm
        · exact ⟨number, le_rfl, hwithin part deed hm⟩
        · obtain ⟨n, hn, hp⟩ := hgo.within part deed hm
          exact ⟨n, Nat.le_of_succ_le hn, hp⟩

theorem notes_rounds (fuel : Nat) (hs : store.cache.Sound) (h : AllNoted plans 0 journal renders) :
    Notes plans 0 journal store (rounds fuel renders store) := by
  induction fuel generalizing renders store journal with
  | zero =>
    refine ⟨?_, rfl, fun _ _ hm => absurd hm List.not_mem_nil⟩
    simpa [rounds] using List.forall₂_map_right_iff.2 (h.imp fun _ _ hw => hw.stop)
  | succ fuel ih =>
    by_cases hn : renders.any Watched.hasNews = true
    · simp only [rounds, hn, if_true]
      have hround := notes_round hs h
      have hsound : (round 0 renders store).2.1.cache.Sound := hround.cache_eq ▸ hs.fetchAll _
      have hgo := ih hsound hround.noted
      refine ⟨?_, ?_, fun part deed hm => ?_⟩
      · simpa only [List.append_assoc] using hgo.noted
      · rw [Journal.compiled_append, Cache.fetchAll_append, ← hround.cache_eq]
        exact hgo.cache_eq
      · exact (List.mem_append.1 hm).elim (hround.within part deed) (hgo.within part deed)
    · simp only [rounds, hn]
      exact ⟨by simpa using h, rfl, fun _ _ hm => absurd hm List.not_mem_nil⟩

/-- What an action adds to the journal and to the cache, unless it clears it. -/
theorem noted_act (hk : chronicle.Kept plans)
    (h : AllNoted plans 0 chronicle.journal chronicle.renders) (fuel : Nat) (action : Action) :
    let after := chronicle.act fuel action
    AllNoted (plans ++ Engine.plans fuel (action.start? chronicle.config).toList) 0 after.journal
      after.renders ∧
    ∃ told, after.journal = chronicle.journal ++ told ∧ (action ≠ .clearCache →
      after.store.cache = chronicle.store.cache.fetchAll told.compiled) := by
  have hsame : plans ++ Engine.plans fuel [] = plans := by simp [Engine.plans]
  have hs : chronicle.store.cache.Sound := hk.store.cache
  have hjournal : chronicle.journal = chronicle.journal ++ [] := (List.append_nil _).symm
  cases action with
  | start request =>
    have hfresh : Watched.Noted (request.plan fuel chronicle.config) plans.length chronicle.journal
        (.underway (request.plan fuel chronicle.config) none true : Watched host) :=
      .underway hk.under_eq_nil
    have hstarted : AllNoted (plans ++ [request.plan fuel chronicle.config]) 0 chronicle.journal
        (chronicle.renders ++ [.underway (request.plan fuel chronicle.config) none true]) := by
      rw [AllNoted, List.zipIdx_append]
      exact List.rel_append h (.cons (by simpa using hfresh) .nil)
    have hgo := notes_rounds fuel hs hstarted
    exact ⟨hgo.noted, _, rfl, fun _ => hgo.cache_eq⟩
  | release id =>
    have hheeds : Heeds (fun _ (numbered : Plan Text × Nat) (watched : Watched host) =>
        watched.Noted numbered.1 numbered.2 chronicle.journal) Watched.hear :=
      ⟨fun path hw => hw.hear path, fun hw _ => hw⟩
    have htold := hheeds.foldl_tell [] h (chronicle.store.seatsOf id).places
    have hsame' : (chronicle.store.release id).cache.Sound := hs
    have hgo := notes_rounds fuel hsame' htold
    exact ⟨hsame.symm ▸ hgo.noted, _, rfl, fun _ => hgo.cache_eq⟩
  | compile source tags =>
    refine ⟨hsame.symm ▸ AllNoted.congr h fun n _ part deed hm hp => ?_, _, rfl, fun _ => rfl⟩
    cases List.mem_singleton.1 hm
    simpa using hp.length_le
  | setTags tags => exact ⟨hsame.symm ▸ h, [], hjournal, fun _ => rfl⟩
  | setEscape escape => exact ⟨hsame.symm ▸ h, [], hjournal, fun _ => rfl⟩
  | clearCache => exact ⟨hsame.symm ▸ h, [], hjournal, fun hne => absurd rfl hne⟩

theorem noted_run (hk : chronicle.Kept plans)
    (h : AllNoted plans 0 chronicle.journal chronicle.renders) (fuel : Nat) (actions : List Action) :
    AllNoted (plans ++ Engine.plans fuel (Action.starts chronicle.config actions)) 0
      (chronicle.run fuel actions).journal (chronicle.run fuel actions).renders := by
  induction actions generalizing chronicle plans with
  | nil => simpa [run, Engine.plans, Action.starts] using h
  | cons action actions ih =>
    have hrun := ih (hk.act fuel action).1 (noted_act hk h fuel action).1
    simpa [run, Engine.plans, Action.starts, config_act] using hrun

/-- What holds of the chronicle of a run on a new engine. -/
theorem noted_run_new (host : Host) (fuel : Nat) (config : Config) (actions : List Action) :
    AllNoted (Engine.plans fuel (Action.starts config actions)) 0
      ((new host config).run fuel actions).journal ((new host config).run fuel actions).renders :=
  noted_run (kept_new host config) .nil fuel actions

end Chronicle

namespace Engine

variable {fuel : Nat} {config : Config} {actions : List Action}

/-- What has been done for a render that is over with a text is a run of its plan to that text. -/
theorem runs_of_finished {render : Nat} {request : Request} {defaults : Config} {text : Text}
    (hs : (Action.starts config actions)[render]? = some (request, defaults))
    (hf : ((new config).run host fuel actions).statuses[render]? = some (.finished (.ok text))) :
    (request.plan fuel defaults).Runs host [render]
      ((journal host fuel config actions).under [render]) text := by
  have hnoted := Chronicle.noted_run_new host fuel config actions
  rw [run_new, getElem?_statuses] at hf
  obtain ⟨watched, hi, hstatus⟩ := hf
  obtain rfl := Watched.eq_of_status hstatus
  obtain ⟨hlt, hi⟩ := List.getElem?_eq_some_iff.1 hi
  have hplan : (plans fuel (Action.starts config actions))[render]? =
      some (request.plan fuel defaults) := by
    simp [plans, hs]
  obtain ⟨hlt', hplan⟩ := List.getElem?_eq_some_iff.1 hplan
  have hrender := hnoted.get (i := render) (by simpa using hlt') hlt
  simp only [List.get_eq_getElem, List.getElem_zipIdx, hi, hplan, Nat.zero_add] at hrender
  cases hrender with
  | finished runs => exact runs

/-- What an action tells to compile it fetches, one source after the other. -/
theorem cache_act (host : Host) (fuel : Nat) (config : Config) (actions : List Action)
    {action : Action} (hne : action ≠ .clearCache) : ∃ told,
    journal host fuel config (actions ++ [action]) = journal host fuel config actions ++ told ∧
    ((new config).run host fuel (actions ++ [action])).store.cache =
      ((new config).run host fuel actions).store.cache.fetchAll told.compiled := by
  obtain ⟨-, told, hjournal, hcache⟩ := Chronicle.noted_act
    (Chronicle.kept_run_new host fuel config actions)
    (Chronicle.noted_run_new host fuel config actions) fuel action
  simp only [run_new, journal, Chronicle.run_append]
  exact ⟨told, hjournal, hcache hne⟩

end Engine
end Stencil
