import Mathlib
import Stencil.Proofs.Direct.Engine
import Stencil.Proofs.Engine.Confluence
import Stencil.Proofs.Engine.Transparency
import Stencil.Proofs.Process.PromptJoin

/-!
# Renders in flight

Renders that share an engine do not disturb each other. How a render stands after each action is told
by its plan and by what has been released: whether it waits, what text it has come to and whether it
has failed. With which of its own faults it has failed can depend on the others only where it comes
to a large join; there news comes in an order that all who wait for a value have a part in.
-/

namespace Stencil

variable {host : Host} {hp : host.Pure} {bound : Option Error} {plan : Plan Text}

namespace Rendering

/-- A render that has failed does so by its plan. What the plan fails with is what it has failed
with, unless that came about late: before the last action. -/
inductive Keeps (hp : host.Pure) (bound : Option Error) (plan : Plan Text) (late : Prop) (store : Store) :
    Rendering → Prop
  | fresh : Keeps hp bound plan late store (.underway (plan.process host) none true)
  | waiting {state : (plan.process host).State} {news : Bool}
    (holds : (plan.prompt hp bound).Holds state store) :
    Keeps hp bound plan late store (.underway (plan.process host) (some state) news)
  | finished {text : Text} : Keeps hp bound plan late store (.finished (.ok text))
  | failed {error : Error} (fails : (plan.failure? host bound (store.isReady host)).isSome)
    (exact : ¬ late → ¬ plan.Queues host (store.isReady host) →
      plan.failure? host bound (store.isReady host) = some error) :
    Keeps hp bound plan late store (.finished (.error error))
  | exhausted : Keeps hp bound plan late store .exhausted

variable {late later : Prop} {number : Nat} {store after : Store} {rendering : Rendering}

theorem Keeps.of_steps {mine : Place → Prop} {begins : PendingId → Prop}
    (h : Keeps hp bound plan late store rendering) (hs : store.Steps host mine begins after) :
    Keeps hp bound plan late after rendering := by
  cases h with
  | fresh => exact .fresh
  | waiting holds => exact .waiting ((plan.prompt hp bound).holds_of_steps holds hs)
  | finished => exact .finished
  | failed fails exact =>
    exact .failed (hs.isReady_eq.symm ▸ fails) (hs.isReady_eq.symm ▸ exact)
  | exhausted => exact .exhausted

/-- A further action begins. -/
theorem Keeps.renew (h : Keeps hp bound plan late store rendering)
    (hr : ∀ id, store.isReady host id = true → after.isReady host id = true)
    (hlater : ∀ error, rendering.status = .finished (.error error) → later) :
    Keeps hp bound plan later after rendering := by
  cases h with
  | fresh => exact .fresh
  | waiting holds => exact .waiting ((plan.prompt hp bound).holds_mono hr holds)
  | finished => exact .finished
  | failed fails _ =>
    exact .failed (Plan.isSome_failure?_mono hr fails) fun hn => absurd (hlater _ rfl) hn
  | exhausted => exact .exhausted

theorem Keeps.hear (h : Keeps hp bound plan late store rendering) (path : List Nat) :
    Keeps hp bound plan late store (rendering.hear path) := by
  cases h with
  | fresh => exact .fresh
  | waiting holds => exact .waiting ((plan.prompt hp bound).holds_hear path holds)
  | finished => exact .finished
  | failed fails exact => exact .failed fails exact
  | exhausted => exact .exhausted

theorem Keeps.stop (h : Keeps hp bound plan late store rendering) :
    Keeps hp bound plan late store rendering.stop := by
  rw [Rendering.stop]
  split
  · exact .exhausted
  · exact h

theorem Keeps.advance (h : Keeps hp bound plan late store rendering)
    (hsound : Sound hp plan number store rendering) (hs : store.Sound host) :
    Keeps hp bound plan late (rendering.advance number store).2 (rendering.advance number store).1 := by
  have hgo : ∀ state : Option (plan.process host).State,
      (∀ s, state = some s → (plan.lawful hp).Rests host [number] s store) →
      (∀ s, state = some s → (plan.prompt hp bound).Holds s store) →
      Keeps hp bound plan late ((underway (plan.process host) state true).advance number store).2
        ((underway (plan.process host) state true).advance number store).1 := by
    intro state hrest hholds
    have hst := (plan.lawful hp).steps hs hrest
    have hc := (plan.prompt hp bound).comes hs hrest hholds
    rw [← hst.isReady_eq] at hc
    simp only [Rendering.advance]
    generalize (plan.process host).advance [number] state store = advance at hst hc
    obtain ⟨reached, news, after⟩ := advance
    cases reached with
    | ended outcome =>
      cases outcome with
      | ok text => exact .finished
      | error error => exact .failed hc.1 fun _ => hc.2
    | exhausted => exact .exhausted
    | waiting s => exact .waiting hc.1
  cases h with
  | fresh => exact hgo none (by rintro s ⟨⟩) (by rintro s ⟨⟩)
  | @waiting state news holds =>
    cases news with
    | false => exact .waiting holds
    | true =>
      refine hgo (some state) ?_ ?_
      · rintro s ⟨⟩
        cases hsound with
        | waiting rests asleep => exact rests
      · rintro s ⟨⟩
        exact holds
  | finished => exact .finished
  | failed fails exact => exact .failed fails exact
  | exhausted => exact .exhausted

end Rendering

/-- How a status stands by the plan of a render that can go no further. -/
def Status.Stands (host : Host) (bound : Option Error) (plan : Plan Text) (ready : PendingId → Bool)
    (late : Prop) : Status → Prop
  | .waiting => plan.result? host ready = none ∧ plan.failure? host bound ready = none
  | .finished (.ok text) => plan.result? host ready = some text
  | .finished (.error error) =>
    plan.Faults host ready error ∧ (plan.failure? host bound ready).isSome ∧
      (¬ late → ¬ plan.Queues host ready → plan.failure? host bound ready = some error)
  | .exhausted => True

theorem Rendering.Keeps.stands {late : Prop} {number : Nat} {store : Store} {rendering : Rendering}
    (h : rendering.Keeps hp bound plan late store) (hsound : rendering.Sound hp plan number store)
    (hquiet : rendering.hasNews = false) :
    rendering.status.Stands host bound plan (store.isReady host) late := by
  cases hsound with
  | fresh => cases hquiet
  | waiting rests asleep =>
    cases h with
    | waiting holds =>
      exact ⟨((plan.lawful hp).blocked rests.stands (asleep hquiet)).2.1,
        (plan.prompt hp bound).asleep rests.stands (asleep hquiet) holds⟩
  | finished result _ => exact result
  | failed faults =>
    cases h with
    | failed fails exact => exact ⟨faults, fails, exact⟩
  | exhausted => trivial

namespace Engine

variable {plans : List (Plan Text)} {number : Nat} {renders : List Rendering} {store after : Store}
  {late later : Nat → Prop}

/-- Renders of these plans, from a number on. -/
abbrev AllKeep (hp : host.Pure) (bound : Option Error) (late : Nat → Prop) (plans : List (Plan Text))
    (number : Nat) (store : Store) (renders : List Rendering) : Prop :=
  List.Forall₂ (fun numbered rendering => rendering.Keeps hp bound numbered.1 (late numbered.2) store)
    (plans.zipIdx number) renders

theorem AllKeep.of_steps {mine : Place → Prop} {begins : PendingId → Prop}
    (h : AllKeep hp bound late plans number store renders) (hs : store.Steps host mine begins after) :
    AllKeep hp bound late plans number after renders :=
  h.imp fun _ _ hk => hk.of_steps hs

theorem round_keep (hs : store.Sound host) (hsound : AllSound hp plans number store renders)
    (h : AllKeep hp bound late plans number store renders) :
    AllKeep hp bound late plans number (round number renders store).2 (round number renders store).1 := by
  induction plans generalizing number renders store with
  | nil =>
    cases h
    exact .nil
  | cons plan plans ih =>
    cases h with
    | @cons _ rendering _ renders hfirst hrest =>
      cases hsound with
      | cons hfirstsound hrestsound =>
        obtain ⟨hst, -⟩ := hfirstsound.advance hs
        have hrestsound' : AllSound hp plans (number + 1) (rendering.advance number store).2 renders := by
          refine AllSound.of_steps hrestsound hst fun n hn part hp hp' => ?_
          have he : n = number := eq_of_cons_suffix hp hp'
          omega
        have hgo := (round_sound hst.sound hrestsound').1
        exact .cons ((hfirst.advance hfirstsound hs).of_steps hgo)
          (ih hst.sound hrestsound' (AllKeep.of_steps hrest hst))

theorem rounds_keep (fuel : Nat) (hs : store.Sound host) (hsound : AllSound hp plans 0 store renders)
    (h : AllKeep hp bound late plans 0 store renders) :
    AllKeep hp bound late plans 0 (rounds fuel renders store).2 (rounds fuel renders store).1 := by
  induction fuel generalizing renders store with
  | zero => exact List.forall₂_map_right_iff.2 (h.imp fun _ _ hk => hk.stop)
  | succ fuel ih =>
    simp only [rounds]
    split
    · obtain ⟨hst, hall⟩ := round_sound hs hsound
      exact ih hst.sound hall (round_keep hs hsound h)
    · exact h

theorem heeds_keeps (hp : host.Pure) (bound : Option Error) (late : Nat → Prop) (store : Store) :
    Heeds (fun _ (numbered : Plan Text × Nat) rendering =>
      rendering.Keeps hp bound numbered.1 (late numbered.2) store) Rendering.hear :=
  ⟨fun path hk => hk.hear path, fun hk _ => hk⟩

/-- The renders of these numbers have failed. -/
def Failed (statuses : List Status) (number : Nat) : Prop :=
  ∃ error, statuses[number]? = some (.finished (.error error))

/-- A further action begins. -/
theorem AllKeep.renew (h : AllKeep hp bound late plans number store renders)
    (hr : ∀ id, store.isReady host id = true → after.isReady host id = true)
    (hlater : ∀ n error, (renders.map Rendering.status)[n]? = some (.finished (.error error)) →
      later (number + n)) :
    AllKeep hp bound later plans number after renders := by
  induction plans generalizing number renders with
  | nil =>
    cases h
    exact .nil
  | cons plan plans ih =>
    cases h with
    | cons hfirst hrest =>
      refine .cons (hfirst.renew hr fun error he => hlater 0 error (by simp [he])) (ih hrest ?_)
      intro n error hn
      rw [Nat.add_assoc, Nat.add_comm 1]
      exact hlater (n + 1) error (by simpa using hn)

variable {engine : Engine}

/-- An action, at whose beginning some renders have failed. -/
theorem AllKeep.act (hsound : engine.Sound hp plans)
    (h : AllKeep hp bound late plans 0 engine.store engine.renders) (fuel : Nat) (action : Action) :
    AllKeep hp bound (Failed engine.statuses)
      (plans ++ Engine.plans fuel (action.start? engine.config).toList) 0
      (engine.act host fuel action).store (engine.act host fuel action).renders := by
  have hsame : plans ++ Engine.plans fuel [] = plans := by simp [Engine.plans]
  have hrenew : ∀ {after : Store},
      (∀ id, engine.store.isReady host id = true → after.isReady host id = true) →
      AllKeep hp bound (Failed engine.statuses) plans 0 after engine.renders := fun hr =>
    h.renew hr fun n error hn => ⟨error, by rw [Nat.zero_add]; exact hn⟩
  cases action with
  | start request =>
    have hstarted : AllKeep hp bound (Failed engine.statuses)
        (plans ++ [request.plan fuel engine.config]) 0 engine.store (engine.renders ++
          [.underway ((request.plan fuel engine.config).process host) none true]) := by
      rw [AllKeep, List.zipIdx_append]
      exact List.rel_append (hrenew fun _ hr => hr) (.cons .fresh .nil)
    exact rounds_keep fuel hsound.store (hsound.started _) hstarted
  | release id =>
    have hrelease : ∀ other, engine.store.isReady host other = true →
        (engine.store.release id).isReady host other = true :=
      fun other hr => Store.isReady_release.2 (.inl hr)
    have htold := (heeds_keeps hp bound _ _).foldl_tell [] (hrenew hrelease)
      (engine.store.seatsOf id).places
    exact hsame.symm ▸ rounds_keep fuel (Store.sound_release hsound.store id) (hsound.released id) htold
  | compile source tags =>
    exact hsame.symm ▸ hrenew fun _ hr => hr
  | setTags tags => exact hsame.symm ▸ hrenew fun _ hr => hr
  | setEscape escape => exact hsame.symm ▸ hrenew fun _ hr => hr
  | clearCache => exact hsame.symm ▸ hrenew fun _ hr => hr

/-- What has been said of the renders of these plans is so of their statuses. -/
theorem AllKeep.stands (hsound : engine.Sound hp plans)
    (h : AllKeep hp bound late plans 0 engine.store engine.renders) {n : Nat} {plan : Plan Text}
    (hn : plans[n]? = some plan) : ∃ status, engine.statuses[n]? = some status ∧
      status.Stands host bound plan (engine.store.isReady host) (late n) := by
  obtain ⟨hlt, hget⟩ := List.getElem?_eq_some_iff.1 hn
  have hlength := hsound.renders.length_eq
  rw [List.length_zipIdx] at hlength
  have hlt' : n < engine.renders.length := hlength ▸ hlt
  have hzip : n < (plans.zipIdx 0).length := by simpa using hlt
  have hkeeps := (List.forall₂_iff_get.1 h).2 n hzip hlt'
  have hrenders := (List.forall₂_iff_get.1 hsound.renders).2 n hzip hlt'
  simp only [List.get_eq_getElem, List.getElem_zipIdx, Nat.zero_add, hget] at hkeeps hrenders
  refine ⟨engine.renders[n].status, by simp [statuses, hlt'], ?_⟩
  exact hkeeps.stands hrenders (hsound.quiet _ (List.getElem_mem hlt'))

theorem AllKeep.run (hsound : engine.Sound hp plans)
    (h : AllKeep hp bound late plans 0 engine.store engine.renders) (fuel : Nat) (actions : List Action) :
    ∃ later, AllKeep hp bound later (plans ++ Engine.plans fuel (Action.starts engine.config actions)) 0
      (engine.run host fuel actions).store (engine.run host fuel actions).renders := by
  induction actions generalizing engine plans late with
  | nil => exact ⟨late, by simpa [Engine.plans, Action.starts] using h⟩
  | cons action actions ih =>
    obtain ⟨later, hrun⟩ := ih (hsound.act fuel action).1 (AllKeep.act hsound h fuel action)
    refine ⟨later, ?_⟩
    simpa [Engine.plans, Action.starts, config_act] using hrun

end Engine

namespace Status

variable {ready more : PendingId → Bool} {late later : Prop}
  {status old old₁ old₂ new₁ new₂ first second : Status}

/-- One more action has been carried out: what is over has stayed as it was. -/
structure Succeeds (host : Host) (bound : Option Error) (plan : Plan Text) (ready : PendingId → Bool)
    (old new : Status) : Prop where
  stands : new.Stands host bound plan ready (∃ error, old = .finished (.error error))
  stays : old ≠ .waiting → new = old

/-- How a render stands in two runs: the same, or failed in both; and the same if it has not come to
a large join. -/
structure Matches (host : Host) (plan : Plan Text) (ready : PendingId → Bool)
    (first second : Status) : Prop where
  alike : first ≠ .exhausted → second ≠ .exhausted → first = second ∨
    ∃ error other, first = .finished (.error error) ∧ second = .finished (.error other) ∧
      plan.Faults host ready error ∧ plan.Faults host ready other
  same : first ≠ .exhausted → second ≠ .exhausted → ¬ plan.Queues host ready → first = second

theorem Stands.imp (h : status.Stands host bound plan ready late) (hl : late → later) :
    status.Stands host bound plan ready later := by
  match status with
  | .waiting | .finished (.ok _) | .exhausted => exact h
  | .finished (.error error) => exact ⟨h.1, h.2.1, fun hn => h.2.2 (mt hl hn)⟩

theorem Stands.succeeds (h : status.Stands host bound plan ready late) :
    Succeeds host bound plan ready status status := by
  refine ⟨?_, fun _ => rfl⟩
  match status with
  | .waiting | .finished (.ok _) | .exhausted => exact h
  | .finished (.error error) => exact ⟨h.1, h.2.1, fun hn => absurd ⟨error, rfl⟩ hn⟩

/-- What a render has come to is told by its plan and what is ready, but for the failure. -/
theorem Stands.alike (h₁ : first.Stands host bound plan ready late)
    (h₂ : second.Stands host bound plan ready later) (hne₁ : first ≠ .exhausted)
    (hne₂ : second ≠ .exhausted) : first = second ∨
      ∃ error other, first = .finished (.error error) ∧ second = .finished (.error other) ∧
        plan.Faults host ready error ∧ plan.Faults host ready other := by
  match first, second with
  | .exhausted, _ => exact absurd rfl hne₁
  | _, .exhausted => exact absurd rfl hne₂
  | .waiting, .waiting => exact .inl rfl
  | .waiting, .finished (.ok text) => cases h₁.1.symm.trans h₂
  | .finished (.ok text), .waiting => cases h₂.1.symm.trans h₁
  | .finished (.ok text), .finished (.ok other) =>
    cases Option.some.inj (Eq.trans (Eq.symm h₁) h₂)
    exact .inl rfl
  | .finished (.error error), .finished (.error other) =>
    exact .inr ⟨error, other, rfl, rfl, h₁.1, h₂.1⟩
  | .waiting, .finished (.error error) =>
    have hs := h₂.2.1
    rw [h₁.2] at hs
    cases hs
  | .finished (.error error), .waiting =>
    have hs := h₁.2.1
    rw [h₂.2] at hs
    cases hs
  | .finished (.ok text), .finished (.error error) =>
    exact absurd h₂.1 (Plan.not_faults_of_result? h₁ error)
  | .finished (.error error), .finished (.ok text) =>
    exact absurd h₁.1 (Plan.not_faults_of_result? h₂ error)

theorem matches_waiting : Matches host plan ready .waiting .waiting :=
  ⟨fun _ _ => .inl rfl, fun _ _ _ => rfl⟩

/-- A render that has failed in the one run has failed in the other. -/
theorem Matches.failed (h : Matches host plan ready first second) {error : Error}
    (hf : first = .finished (.error error)) (hne : second ≠ .exhausted) :
    ∃ other, second = .finished (.error other) := by
  subst hf
  rcases h.alike nofun hne with rfl | ⟨_, other, -, rfl, -⟩
  · exact ⟨error, rfl⟩
  · exact ⟨other, rfl⟩

theorem Matches.symm (h : Matches host plan ready first second) :
    Matches host plan ready second first where
  alike hne₂ hne₁ := (h.alike hne₁ hne₂).imp Eq.symm fun ⟨e, o, h₁, h₂, hf, ho⟩ =>
    ⟨o, e, h₂, h₁, ho, hf⟩
  same hne₂ hne₁ hq := (h.same hne₁ hne₂ hq).symm

/-- What has failed before stays as it was, in both runs. -/
theorem Succeeds.same_of_failed (h₁ : Succeeds host bound plan more old₁ new₁)
    (h₂ : Succeeds host bound plan more old₂ new₂) (hold : Matches host plan ready old₁ old₂)
    (hne₂ : new₂ ≠ .exhausted) (hq : ¬ plan.Queues host ready) {error : Error}
    (hf : old₁ = .finished (.error error)) : new₁ = new₂ := by
  have hne : old₂ ≠ .exhausted := by
    rintro rfl
    exact hne₂ (h₂.stays nofun)
  obtain ⟨other, ho⟩ := hold.failed hf hne
  have hn₁ : new₁ = old₁ := h₁.stays (by simp [hf])
  have hn₂ : new₂ = old₂ := h₂.stays (by simp [ho])
  rw [hn₁, hn₂]
  exact hold.same (by simp [hf]) hne hq

theorem Succeeds.matches (h₁ : Succeeds host bound plan more old₁ new₁)
    (h₂ : Succeeds host bound plan more old₂ new₂) (hold : Matches host plan ready old₁ old₂)
    (hr : ∀ id, ready id = true → more id = true) : Matches host plan more new₁ new₂ where
  alike := h₁.stands.alike h₂.stands
  same hne₁ hne₂ hq := by
    have hq' : ¬ plan.Queues host ready := mt (Plan.Queues.mono hr) hq
    rcases h₁.stands.alike h₂.stands hne₁ hne₂ with he | ⟨error, other, rfl, rfl, -⟩
    · exact he
    · by_cases hf₁ : ∃ error, old₁ = .finished (.error error)
      · obtain ⟨_, hf₁⟩ := hf₁
        exact h₁.same_of_failed h₂ hold hne₂ hq' hf₁
      · by_cases hf₂ : ∃ error, old₂ = .finished (.error error)
        · obtain ⟨_, hf₂⟩ := hf₂
          exact (h₂.same_of_failed h₁ hold.symm hne₁ hq' hf₂).symm
        · -- both have failed now, with the failure of the plan
          have he := (h₁.stands.2.2 hf₁ hq).symm.trans (h₂.stands.2.2 hf₂ hq)
          rw [Option.some.inj he]

end Status

namespace Engine

section Ended
variable {renders : List Rendering} {rendering : Rendering} {n : Nat} {engine : Engine}

/-- A render that is over stays as it is. -/
theorem round_of_ended (h : renders[n]? = some rendering) (hended : rendering.status ≠ .waiting)
    (number : Nat) (store : Store) : (round number renders store).1[n]? = some rendering := by
  induction renders generalizing n number store with
  | nil => cases h
  | cons first renders ih =>
    cases n with
    | zero =>
      obtain rfl : first = rendering := by simpa using h
      simp [round, Rendering.advance_of_not_hasNews (hasNews_of_status hended)]
    | succ n => simpa [round] using ih (by simpa using h) (number + 1) _

theorem rounds_of_ended (h : renders[n]? = some rendering) (hended : rendering.status ≠ .waiting)
    (fuel : Nat) (store : Store) : (rounds fuel renders store).1[n]? = some rendering := by
  induction fuel generalizing renders store with
  | zero => simp [rounds, h, Rendering.stop, hasNews_of_status hended]
  | succ fuel ih =>
    simp only [rounds]
    split
    · exact ih (round_of_ended h hended 0 store) _
    · exact h

theorem foldl_tell_of_ended (h : renders[n]? = some rendering)
    (hended : rendering.status ≠ .waiting) (places : List Place) :
    (places.foldl (fun renders place => tell place renders) renders)[n]? = some rendering := by
  induction places generalizing renders with
  | nil => exact h
  | cons place places ih =>
    refine ih ?_
    have hhear : ∀ path, rendering.hear path = rendering := by
      intro path
      cases rendering with
      | underway => exact absurd rfl hended
      | finished | exhausted => rfl
    simp only [Engine.tell]
    split
    · exact h
    · rw [List.getElem?_modify]
      simp [h, hhear]

theorem act_of_ended (h : engine.renders[n]? = some rendering)
    (hended : rendering.status ≠ .waiting) (fuel : Nat) (action : Action) :
    (engine.act host fuel action).renders[n]? = some rendering := by
  cases action with
  | start request =>
    refine rounds_of_ended ?_ hended fuel _
    rw [List.getElem?_append_left (List.getElem?_eq_some_iff.1 h).1, h]
  | release id => exact rounds_of_ended (foldl_tell_of_ended h hended _) hended fuel _
  | compile | setTags | setEscape | clearCache => exact h

end Ended

variable {fuel : Nat} {config : Config} {actions : List Action}

theorem config_run (host : Host) (engine : Engine) (fuel : Nat) (actions : List Action) :
    (engine.run host fuel actions).config = actions.foldl Action.config engine.config := by
  induction actions generalizing engine with
  | nil => rfl
  | cons action actions ih => rw [run_cons, ih, config_act, List.foldl_cons]

/-- A render that has not been started has no status. -/
theorem statuses_of_le (hp : host.Pure) (fuel : Nat) (config : Config) (actions : List Action)
    {n : Nat} (h : (Action.starts config actions).length ≤ n) :
    (((new config).run host fuel actions).statuses[n]?).getD .waiting = .waiting := by
  have hlength := (sound_run_new hp fuel config actions).1.renders.length_eq
  have hnone : ((new config).run host fuel actions).statuses[n]? = none := by
    rw [List.getElem?_eq_none_iff]
    simp only [statuses, List.length_map, ← hlength, List.length_zipIdx, plans]
    exact h
  rw [hnone]
  rfl

/-- One more action in a run, seen by one render: how it stood before and how it stands after. -/
theorem run_succeeds (hp : host.Pure) (fuel : Nat) (config : Config) (actions : List Action)
    (action : Action) {n : Nat} {plan : Plan Text}
    (hn : (plans fuel (Action.starts config (actions ++ [action])))[n]? = some plan) :
    ∃ later, ((new config).run host fuel (actions ++ [action])).statuses[n]? = some later ∧
      Status.Succeeds host bound plan (Action.ready host (actions ++ [action]))
        ((((new config).run host fuel actions).statuses[n]?).getD .waiting) later := by
  obtain ⟨hsound, -⟩ := sound_run_new hp fuel config actions
  have hnew : AllKeep hp bound (fun _ => False) [] 0 (new config).store (new config).renders := .nil
  obtain ⟨late, hkeep⟩ := AllKeep.run (sound_new hp config) hnew fuel actions
  have hready := (sound_run_new hp fuel config (actions ++ [action])).2
  have hconfig : ((new config).run host fuel actions).config = actions.foldl Action.config config :=
    config_run host (new config) fuel actions
  have hplans : plans fuel (Action.starts config (actions ++ [action])) =
      plans fuel (Action.starts config actions) ++
        plans fuel (action.start? ((new config).run host fuel actions).config).toList := by
    rw [hconfig]
    simp [Action.starts_append, Action.starts, plans]
  have hafter : (new config).run host fuel (actions ++ [action]) =
      ((new config).run host fuel actions).act host fuel action := run_append ..
  rw [hafter] at hready ⊢
  rw [hplans] at hn
  rw [List.nil_append] at hkeep
  generalize (new config).run host fuel actions = before at hsound hkeep hready hn
  obtain ⟨later, hlater, hstands⟩ :=
    AllKeep.stands (hsound.act fuel action).1 (AllKeep.act hsound hkeep fuel action) hn
  rw [hready] at hstands
  refine ⟨later, hlater, hstands.imp ?_, fun hold => ?_⟩
  · rintro ⟨error, he⟩
    exact ⟨error, by rw [he]; rfl⟩
  · -- a render that is over stays as it is
    cases hb : before.renders[n]? with
    | none => simp [statuses, hb] at hold
    | some rendering =>
      have hstatus : before.statuses[n]? = some rendering.status := by simp [statuses, hb]
      rw [hstatus, Option.getD_some] at hold ⊢
      have hact : (before.act host fuel action).renders[n]? = some rendering :=
        act_of_ended hb hold fuel action
      rw [statuses, List.getElem?_map, hact] at hlater
      exact (Option.some.inj hlater).symm

end Engine

namespace Action

/-- Whether an action releases a value. -/
def isRelease : Action → Bool
  | .release _ => true
  | _ => false

theorem forall_start_notMem_cons {action : Action} {actions : List Action} :
    (∀ request, .start request ∉ action :: actions) ↔
      (∀ request, action ≠ .start request) ∧ ∀ request, .start request ∉ actions := by
  simp only [List.mem_cons, not_or, forall_and, ne_comm, Ne]

theorem starts_eq_nil {actions : List Action} (h : ∀ request, .start request ∉ actions)
    (config : Config) : starts config actions = [] := by
  induction actions generalizing config with
  | nil => rfl
  | cons action actions ih =>
    obtain ⟨hfirst, hrest⟩ := forall_start_notMem_cons.1 h
    have hnil : starts (action.config config) actions = [] := ih hrest (action.config config)
    cases action with
    | start request => exact absurd rfl (hfirst request)
    | _ => simpa [starts, start?] using hnil

theorem starts_filter_isRelease (config : Config) (actions : List Action) :
    starts config (actions.filter isRelease) = [] := by
  refine starts_eq_nil (fun request hm => ?_) config
  simp [isRelease] at hm

theorem foldl_config_filter_isRelease (config : Config) (actions : List Action) :
    (actions.filter isRelease).foldl Action.config config = config := by
  induction actions with
  | nil => rfl
  | cons action actions ih =>
    cases action <;> simp [List.filter_cons, isRelease, Action.config, ih]

/-- Only releases make values ready. -/
theorem ready_congr {actions others : List Action}
    (h : ∀ id, .release id ∈ actions ↔ .release id ∈ others) :
    ready host actions = ready host others := by
  funext id
  rw [Bool.eq_iff_iff, ready_iff, ready_iff, h]

end Action

namespace Engine

section Isolated
variable (fuel : Nat) (config : Config) (front : List Action) (request : Request)

/-- The releases alone, with the one render among them. -/
def isolated (front : List Action) (request : Request) (back : List Action) : List Action :=
  front.filter Action.isRelease ++ .start request :: back.filter Action.isRelease

theorem starts_isolated (back : List Action) :
    Action.starts config (isolated front request back) = [(request, config)] := by
  simp [isolated, Action.starts_append, Action.starts, Action.start?, Action.config,
    Action.foldl_config_filter_isRelease, Action.starts_filter_isRelease]

theorem ready_isolated (host : Host) (back : List Action) :
    Action.ready host (isolated front request back) =
      Action.ready host (front ++ .start request :: back) := by
  refine Action.ready_congr fun id => ?_
  simp [isolated, Action.isRelease]

/-- How the render stands in the whole run and in the lone one, after the same actions. -/
def StandsAlike (host : Host) (back : List Action) : Prop :=
  let plan := request.plan fuel (front.foldl Action.config config)
  let ready := Action.ready host (front ++ .start request :: back)
  ∃ first second,
    ((new config).run host fuel (front ++ .start request :: back)).statuses[
      (Action.starts config front).length]? = some first ∧
    ((new (front.foldl Action.config config)).run host fuel
      (isolated front request back)).statuses[0]? = some second ∧
    (∃ late, second.Stands host none plan ready late) ∧ Status.Matches host plan ready first second

/-- It has one plan in the whole run. -/
theorem plans_together (back : List Action) :
    (plans fuel (Action.starts config (front ++ .start request :: back)))[
      (Action.starts config front).length]? =
        some (request.plan fuel (front.foldl Action.config config)) := by
  simp [Action.starts_append, Action.starts, Action.start?, plans]

theorem plans_isolated (back : List Action) :
    (plans fuel (Action.starts config (isolated front request back)))[0]? =
      some (request.plan fuel config) := by
  rw [starts_isolated]
  rfl

theorem ready_append_singleton (host : Host) (actions : List Action) (action : Action) {id : PendingId}
    (h : Action.ready host actions id = true) : Action.ready host (actions ++ [action]) id = true := by
  rw [Action.ready_iff] at h ⊢
  exact h.imp_right fun hm => List.mem_append_left [action] hm

theorem standsAlike_start (hp : host.Pure) : StandsAlike fuel config front request host [] := by
  obtain ⟨first, hfirst, hnew₁⟩ := run_succeeds hp fuel config front (.start request)
    (plans_together fuel config front request [])
  obtain ⟨second, hsecond, hnew₂⟩ := run_succeeds hp fuel (front.foldl Action.config config)
    (front.filter Action.isRelease) (.start request) (plans_isolated fuel _ front request [])
  have hready : Action.ready host (front.filter Action.isRelease ++ [.start request]) =
      Action.ready host (front ++ [.start request]) := ready_isolated front request host []
  rw [statuses_of_le hp fuel config front (Nat.le_refl _)] at hnew₁
  rw [statuses_of_le hp fuel _ _ (by simp [Action.starts_filter_isRelease]), hready] at hnew₂
  exact ⟨first, second, hfirst, hsecond, ⟨_, hnew₂.stands⟩,
    hnew₁.matches hnew₂ Status.matches_waiting fun _ hr => hr⟩

variable {fuel config front request} {back : List Action}

/-- A release is an action of both runs. -/
theorem StandsAlike.release (hp : host.Pure) (h : StandsAlike fuel config front request host back)
    {action : Action} (hr : action.isRelease = true) :
    StandsAlike fuel config front request host (back ++ [action]) := by
  obtain ⟨old₁, old₂, hold₁, hold₂, -, hmatches⟩ := h
  have hback : front ++ .start request :: (back ++ [action]) =
      (front ++ .start request :: back) ++ [action] := by simp
  have halone : isolated front request (back ++ [action]) =
      isolated front request back ++ [action] := by simp [isolated, hr]
  obtain ⟨first, hfirst, hnew₁⟩ := run_succeeds hp fuel config (front ++ .start request :: back)
    action (hback ▸ plans_together fuel config front request (back ++ [action]))
  obtain ⟨second, hsecond, hnew₂⟩ := run_succeeds hp fuel (front.foldl Action.config config)
    (isolated front request back) action (halone ▸ plans_isolated fuel _ front request (back ++ [action]))
  have hready : Action.ready host (isolated front request back ++ [action]) =
      Action.ready host (front ++ .start request :: back ++ [action]) :=
    halone ▸ hback ▸ ready_isolated front request host (back ++ [action])
  rw [hold₁, Option.getD_some] at hnew₁
  rw [hold₂, Option.getD_some, hready] at hnew₂
  rw [StandsAlike, hback, halone]
  exact ⟨first, second, hfirst, hsecond, ⟨_, hnew₂.stands⟩,
    hnew₁.matches hnew₂ hmatches fun _ => ready_append_singleton host _ action⟩

/-- At any other action the lone run takes no step, and nothing becomes ready. -/
theorem StandsAlike.other (hp : host.Pure) (h : StandsAlike fuel config front request host back)
    {action : Action} (hr : action.isRelease = false) :
    StandsAlike fuel config front request host (back ++ [action]) := by
  obtain ⟨old₁, second, hold₁, hsecond, ⟨late, hstands⟩, hmatches⟩ := h
  have hback : front ++ .start request :: (back ++ [action]) =
      (front ++ .start request :: back) ++ [action] := by simp
  have halone : isolated front request (back ++ [action]) = isolated front request back := by
    simp [isolated, hr]
  obtain ⟨first, hfirst, hnew₁⟩ := run_succeeds hp fuel config (front ++ .start request :: back)
    action (hback ▸ plans_together fuel config front request (back ++ [action]))
  have hready : Action.ready host (front ++ .start request :: back) =
      Action.ready host (front ++ .start request :: back ++ [action]) := by
    rw [← hback, ← ready_isolated, ← halone, ready_isolated]
  rw [hold₁, Option.getD_some] at hnew₁
  rw [hready] at hstands
  rw [StandsAlike, hback, halone]
  exact ⟨first, second, hfirst, hsecond, ⟨late, hstands⟩,
    hnew₁.matches hstands.succeeds hmatches fun _ => ready_append_singleton host _ action⟩

variable (fuel config front request)

/-- By induction on the actions after the start, the last one last. -/
theorem standsAlike_run (hp : host.Pure) (back : List Action) :
    StandsAlike fuel config front request host back := by
  induction back using List.reverseRecOn with
  | nil => exact standsAlike_start fuel config front request hp
  | append_singleton back action ih =>
    cases hr : action.isRelease with
    | true => exact ih.release hp hr
    | false => exact ih.other hp hr

end Isolated

section Twin
variable {first second : Engine}

/-- Engines that differ in their defaults and in what their caches hold. -/
structure Twin (first second : Engine) : Prop where
  renders : second.renders = first.renders
  store : second.store = first.store.under second.store.cache
  blind : first.Blind
  sound : first.store.cache.Sound
  sound' : second.store.cache.Sound

namespace Twin

theorem statuses_eq (h : Twin first second) : second.statuses = first.statuses := by
  rw [statuses, statuses, h.renders]

/-- With the same defaults they carry out an action alike. -/
theorem act (h : Twin first second) (hconfig : second.config = first.config) (fuel : Nat)
    {action : Action} (hne : action ≠ .clearCache) :
    Twin (first.act host fuel action) (second.act host fuel action) := by
  have hsecond : second = first.under second.store.cache := by
    obtain ⟨config, store, renders⟩ := second
    obtain rfl : config = first.config := hconfig
    obtain rfl : renders = first.renders := h.renders
    exact congrArg (Engine.mk first.config · first.renders) h.store
  obtain ⟨wanted, hown, hact⟩ := h.blind.act_under host h.sound fuel hne
  have hother : second.act host fuel action = (first.act host fuel action).under
      (second.store.cache.fetchAll wanted) := by
    conv_lhs => rw [hsecond]
    exact hact _ h.sound'
  rw [hother]
  exact ⟨rfl, rfl, (h.blind.act fuel action).1, hown ▸ h.sound.fetchAll wanted,
    h.sound'.fetchAll wanted⟩

/-- A release does not look at the defaults. -/
theorem act_release (h : Twin first second) (fuel : Nat) (id : PendingId) :
    Twin (first.act host fuel (.release id)) (second.act host fuel (.release id)) := by
  have hsame : Twin first { second with config := first.config } :=
    ⟨h.renders, h.store, h.blind, h.sound, h.sound'⟩
  obtain ⟨renders, store, blind, sound, sound'⟩ :=
    (hsame.act rfl fuel nofun : Twin (first.act host fuel (.release id)) _)
  exact ⟨renders, store, blind, sound, sound'⟩

/-- An action that neither starts a render nor releases a value, on one of them. -/
theorem act_left (h : Twin first second) (fuel : Nat) {action : Action}
    (hstart : ∀ request, action ≠ .start request) (hrelease : action.isRelease = false) :
    Twin (first.act host fuel action) second := by
  cases action with
  | start request => exact absurd rfl (hstart request)
  | release id => cases hrelease
  | compile source tags =>
    exact ⟨h.renders, h.store, h.blind, h.sound.fetch source _, h.sound'⟩
  | setTags | setEscape => exact ⟨h.renders, h.store, h.blind, h.sound, h.sound'⟩
  | clearCache => exact ⟨h.renders, h.store, h.blind, Cache.sound_clear _, h.sound'⟩

/-- Where no render is started only the releases tell. -/
theorem run (h : Twin first second) (fuel : Nat) {actions : List Action}
    (hstart : ∀ request, .start request ∉ actions) :
    Twin (first.run host fuel actions) (second.run host fuel (actions.filter Action.isRelease)) := by
  induction actions generalizing first second with
  | nil => exact h
  | cons action actions ih =>
    obtain ⟨hfirst, hrest⟩ := Action.forall_start_notMem_cons.1 hstart
    cases hr : action.isRelease with
    | true =>
      rw [List.filter_cons_of_pos hr, run_cons, run_cons]
      refine ih ?_ hrest
      cases action with
      | release id => exact h.act_release fuel id
      | _ => cases hr
    | false =>
      rw [List.filter_cons_of_neg (by simp [hr]), run_cons]
      exact ih (h.act_left fuel hfirst hr) hrest

end Twin

/-- Nothing but releases has an effect on a render that is alone. -/
theorem statuses_isolated (fuel : Nat) (config : Config) {front back : List Action}
    (request : Request) (hfront : ∀ other, .start other ∉ front) (hback : ∀ other, .start other ∉ back) :
    ((new (front.foldl Action.config config)).run host fuel (isolated front request back)).statuses =
      ((new config).run host fuel (front ++ .start request :: back)).statuses := by
  have hnew : Twin (new config) (new (front.foldl Action.config config)) :=
    ⟨rfl, rfl, blind_new config, Cache.sound_empty, Cache.sound_empty⟩
  have hbefore : Twin ((new config).run host fuel front)
      ((new (front.foldl Action.config config)).run host fuel (front.filter Action.isRelease)) :=
    hnew.run fuel hfront
  have hconfig : ((new (front.foldl Action.config config)).run host fuel
      (front.filter Action.isRelease)).config = ((new config).run host fuel front).config := by
    rw [config_run, config_run, Action.foldl_config_filter_isRelease]
    rfl
  rw [isolated, run_append, run_append, run_cons, run_cons]
  have hstarted : Twin (((new config).run host fuel front).act host fuel (.start request))
      (((new (front.foldl Action.config config)).run host fuel
        (front.filter Action.isRelease)).act host fuel (.start request)) :=
    hbefore.act hconfig fuel nofun
  exact (hstarted.run fuel hback).statuses_eq

end Twin

/-- In a run with pure lambdas, how a render stands after any further actions is how it stands after
the same releases on a new engine that has its defaults, where no other render has been started, no
default changed and no cache cleared. It waits in both runs, or has come to the same text, or has
failed; if it has not come to a large join, or no other render has been started, its error too is the
same, else it is a fault of its own. Of a render whose nested work reaches the bound beside others
nothing is told. -/
theorem run_isolated (hp : host.Pure) (fuel : Nat) (config : Config) (front back : List Action)
    (request : Request) :
    let inForce := front.foldl Action.config config
    let plan := request.plan fuel inForce
    let number := (Action.starts config front).length
    let together := (new config).run host fuel (front ++ .start request :: back)
    let alone := (new inForce).run host fuel (isolated front request back)
    let ready := Action.ready host (front ++ .start request :: back)
    ∃ first second, together.statuses[number]? = some first ∧ alone.statuses = [second] ∧
      (first ≠ .exhausted → second ≠ .exhausted →
        (first = second ∨ ∃ error other,
          first = .finished (.error error) ∧ second = .finished (.error other) ∧
            plan.Faults host ready error ∧ plan.Faults host ready other) ∧
        (¬ plan.Queues host ready → first = second)) ∧
      ((∀ other, .start other ∉ front) → (∀ other, .start other ∉ back) → first = second) := by
  intro inForce plan number together alone ready
  obtain ⟨first, second, hfirst, hsecond, -, hmatches⟩ :=
    standsAlike_run fuel config front request hp back
  have hlength : alone.statuses.length = 1 := by
    have hrenders := (sound_run_new hp fuel inForce (isolated front request back)).1.renders.length_eq
    rw [starts_isolated] at hrenders
    simpa [statuses, plans] using hrenders.symm
  obtain ⟨only, honly⟩ := List.length_eq_one_iff.1 hlength
  rw [honly] at hsecond
  obtain rfl : only = second := by simpa using hsecond
  refine ⟨first, only, hfirst, honly, fun hne₁ hne₂ =>
    ⟨hmatches.alike hne₁ hne₂, hmatches.same hne₁ hne₂⟩, fun hfront hback => ?_⟩
  -- alone from the start, it is the first render of both runs
  have hsame : alone.statuses = together.statuses :=
    statuses_isolated fuel config request hfront hback
  have hfirst : together.statuses[number]? = some first := hfirst
  rw [← hsame, honly, show number = 0 by simp [number, Action.starts_eq_nil hfront config]] at hfirst
  simpa using hfirst.symm

theorem not_queues_bothShown (ready : PendingId → Bool) :
    ¬ (bothShown.plan 2 default).Queues twoTexts ready := by
  rintro ⟨nodes, hn, hq⟩
  obtain rfl := Except.ok.inj (hn.symm.trans compile_bothShown)
  rcases hq with hlarge | ⟨⟨i, hi⟩, hq⟩ | ⟨_, -, hq⟩
  · exact absurd hlarge (by decide)
  · match i, hi with
    | 0, _ | 1, _ =>
      obtain ⟨-, v, hv, hq⟩ := hq
      cases hv
      exact hq.elim
  · exact hq.elim

/-- Beside another render of the same texts, with releases and changes before its start and after. -/
theorem run_isolated_bothShown :
    let front := [.start bothShown, .release 1]
    let back := [.setTags ⟨['<'], ['>']⟩, .clearCache, .release 0]
    let together := (new default).run twoTexts 2 (front ++ .start bothShown :: back)
    let alone := (new default).run twoTexts 2 (isolated front bothShown back)
    twoTexts.Pure ∧ together.statuses[1]? = some (.finished (.ok ['a', 'b'])) ∧
      alone.statuses = [.finished (.ok ['a', 'b'])] := by
  intro front back together alone
  have hp : twoTexts.Pure := ⟨fun _ _ _ => rfl, fun _ _ _ _ => rfl⟩
  obtain ⟨first, second, hfirst, hsecond, hsame, -⟩ := run_isolated hp 2 default front back bothShown
  have hfirst' : together.statuses[1]? = some (.finished (.ok ['a', 'b'])) := by decide +kernel
  obtain rfl : first = .finished (.ok ['a', 'b']) := Option.some.inj (hfirst.symm.trans hfirst')
  have hexhausted : .exhausted ∉ alone.statuses := by decide +kernel
  have hne : second ≠ .exhausted := by
    rintro rfl
    exact hexhausted (hsecond.symm ▸ List.mem_singleton_self _)
  have heq : .finished (.ok ['a', 'b']) = second := (hsame nofun hne).2 (not_queues_bothShown _)
  exact ⟨hp, hfirst', heq ▸ hsecond⟩

/-- Two manual values, one of them also behind another value, and three that fail. -/
def threeFail : Host where
  pending
    | 0 => ⟨.ok (.bool true), true⟩
    | 1 => ⟨.ok (.string ['w']), true⟩
    | 2 => ⟨.error (.valueFailed "zero".toList), false⟩
    | 3 => ⟨.error (.valueFailed "one".toList), false⟩
    | 4 => ⟨.error (.valueFailed "two".toList), false⟩
    | 5 => ⟨.ok (.pending 1), false⟩
    | _ => ⟨.ok .null, false⟩
  inline _ _ := .null
  block _ _ _ := .value .null

/-- A render that comes to wait for a value three times and then fails, with all three left. -/
def thriceShown : Request where
  template := .string "{{m}}{{m}}{{m}}{{e}}".toList
  view := .map [(['m'], .pending 0), (['e'], .pending 2)]
  partials := .empty
  tags := none
  escape := none

/-- A section with the items of a large join, which all wait for the value, beside one that waits
for it too. -/
def manyItems : Request where
  template := .string "{{#l}}{{#m}}{{x}}{{/m}}{{/l}}{{#m}}{{e}}{{/m}}".toList
  view := .map [(['m'], .pending 0), (['e'], .pending 4),
    (['l'], .list ([3, 5, 1].map (fun id => .map [(['x'], .pending id)]) ++
      List.replicate 28 (.string [])))]
  partials := .empty
  tags := none
  escape := none

/-- The seats that the other render has left are taken in another order. So the news comes in another
order to the items of the large join, and another failure is met first. -/
theorem run_isolated_manyItems :
    let together := (new default).run threeFail 4 [.start thriceShown, .start manyItems, .release 0]
    let alone := (new default).run threeFail 4
      (isolated [.start thriceShown] manyItems [.release 0])
    threeFail.Pure ∧
      together.statuses[1]? = some (.finished (.error (.valueFailed "two".toList))) ∧
      alone.statuses = [.finished (.error (.valueFailed "one".toList))] := by
  refine ⟨⟨fun _ _ _ => rfl, fun _ _ _ _ => rfl⟩, ?_, ?_⟩
  · decide +kernel
  · decide +kernel

end Engine

end Stencil
