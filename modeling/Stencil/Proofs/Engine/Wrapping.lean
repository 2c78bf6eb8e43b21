import Mathlib
import Stencil.Proofs.Engine.Isolation
import Stencil.Proofs.Plan.Wrapping
import Stencil.Proofs.Process.TracksJoin

/-!
# Renders of wrapped views

A render that is alone on its engine, and the same render with parts of its view wrapped, alone on
another. After each action the two have got equally far and have compiled the same. Only in a large
join of which members have to wait do the additional values give rise to other turns; then it can be
another failure that is met first.
-/

namespace Stencil

open Process (Tracking)

variable {host : Host} {ready : PendingId → Bool} {first second : Process Text}
  {S : first.State → second.State → Prop} {other store : Store} {fuel more : Nat}

namespace Store

variable {id : PendingId}

theorem Tidy.release (h : store.Tidy host) (id : PendingId) : (store.release id).Tidy host :=
  { h with yielded := fun other ho => isReady_release.2 (.inl (h.yielded other ho)) }

theorem Alike.release (h : other.Alike host store) (id : PendingId) :
    (other.release id).Alike host (store.release id) where
  tidy := h.tidy.release id
  tidy' := h.tidy'.release id
  cache := h.cache
  released := congrArg (·.insert id) h.released
  yielded := h.yielded
  seats := h.seats

theorem Tidy.alike (h : store.Tidy host) : store.Alike host store :=
  ⟨h, h, rfl, rfl, fun _ _ => Iff.rfl, fun _ => rfl⟩

end Store

namespace Rendering

/-- Two renders that have got equally far. -/
inductive Paired (S : first.State → second.State → Prop) : Rendering → Rendering → Prop
  | underway {state' : Option first.State} {state : Option second.State}
    (h : Option.Rel S state' state) (news : Bool) :
    Paired S (.underway first state' news) (.underway second state news)
  | finished (outcome : Except Error Text) : Paired S (.finished outcome) (.finished outcome)

namespace Paired

variable {ahead behind : Rendering}

theorem status_eq (h : Paired S ahead behind) : ahead.status = behind.status := by
  cases h <;> rfl

theorem hasNews_eq (h : Paired S ahead behind) : ahead.hasNews = behind.hasNews := by
  cases h <;> rfl

theorem hear (tracking : Tracking host ready first second Eq S) (h : Paired S ahead behind)
    (path : List Nat) : Paired S (ahead.hear path) (behind.hear path) := by
  cases h with
  | underway h =>
    cases h with
    | none => exact .underway .none true
    | some h => exact .underway (.some (tracking.hear path h)) true
  | finished outcome => exact .finished outcome

end Paired
end Rendering

namespace Engine

open Rendering (Paired)

variable {ahead behind : Rendering}

theorem length_round (number : Nat) (renders : List Rendering) (store : Store) :
    (round number renders store).1.length = renders.length := by
  induction renders generalizing number store with
  | nil => rfl
  | cons rendering renders ih => simp [round, ih]

theorem length_rounds (fuel : Nat) (renders : List Rendering) (store : Store) :
    (rounds fuel renders store).1.length = renders.length := by
  induction fuel generalizing renders store with
  | zero => simp [rounds]
  | succ fuel ih =>
    simp only [rounds]
    split
    · rw [ih, length_round]
    · rfl

theorem rounds_underway (fuel : Nat) (process : Process Text) (state : Option process.State)
    (store : Store) : rounds (fuel + 1) [.underway process state true] store =
      (let advanced := (Rendering.underway process state true).advance 0 store
      rounds fuel [advanced.1] advanced.2) := by
  simp [rounds, round, Rendering.hasNews]

theorem rounds_finished (fuel : Nat) (outcome : Except Error Text) (store : Store) :
    rounds fuel [.finished outcome] store = ([.finished outcome], store) :=
  rounds_of_over (by simp [Rendering.status]) fuel store

theorem rounds_exhausted (fuel : Nat) (store : Store) :
    rounds fuel [.exhausted] store = ([.exhausted], store) :=
  rounds_of_over (by simp [Rendering.status]) fuel store

/-- A render that idles is at rest after one more round. -/
theorem rounds_idle {process : Process Text} {state : process.State}
    (h : process.Idles host (store.isReady host) state) (hs : store.Tidy host) (fuel : Nat)
    (news : Bool) : ∃ begun, rounds (fuel + 1) [.underway process (some state) news] store =
      ([.underway process (some state) false], { store with begun }) := by
  cases news with
  | false => exact ⟨store.begun, rounds_of_quiet (by simp [Rendering.hasNews]) _ _⟩
  | true =>
    obtain ⟨begun, ha⟩ := h [0] store hs rfl
    refine ⟨begun, ?_⟩
    rw [rounds_underway]
    simp only [Rendering.advance, ha]
    exact rounds_of_quiet (by simp [Rendering.hasNews]) _ _

/-- How two renders stand, each alone in a store: at rest, and equally far if the second has not
reached its bound. At most these values are ready. -/
def Reach (host : Host) (S : first.State → second.State → Prop) (ready : PendingId → Bool)
    (reached' reached : List Rendering × Store) : Prop :=
  ∃ ahead behind, reached'.1 = [ahead] ∧ reached.1 = [behind] ∧
    (behind = .exhausted ∨ Paired S ahead behind ∧ behind.hasNews = false ∧
      reached'.2.Alike host reached.2 ∧
      ∀ id, reached.2.isReady host id = true → ready id = true)

/-- Where both idle after an advance the first goes one more round, and so does the second if it can. -/
theorem rounds_waiting {state' : first.State} {state : second.State} (h : S state' state)
    (hidles' : first.Idles host (store.isReady host) state')
    (hidles : second.Idles host (store.isReady host) state) (hs : other.Alike host store)
    (hle : ∀ id, store.isReady host id = true → ready id = true) (hlt : fuel < more)
    (news' news : Bool) : Reach host S ready
      (rounds more [.underway first (some state') news'] other)
      (rounds fuel [.underway second (some state) news] store) := by
  obtain ⟨more, rfl⟩ : ∃ k, more = k + 1 := ⟨more - 1, by omega⟩
  rw [← hs.isReady_eq] at hidles'
  obtain ⟨begun', hahead⟩ := rounds_idle hidles' hs.tidy' more news'
  rw [hahead]
  have hpaired : Paired S (.underway first (some state') false) (.underway second (some state) false) :=
    .underway (.some h) false
  cases fuel with
  | succ fuel =>
    obtain ⟨begun, hbehind⟩ := rounds_idle hidles hs.tidy fuel news
    rw [hbehind]
    exact ⟨_, _, rfl, rfl, .inr ⟨hpaired, rfl, hs.begun begun' begun, hle⟩⟩
  | zero =>
    cases news with
    | true => exact ⟨_, .exhausted, rfl, rfl, .inl rfl⟩
    | false => exact ⟨_, _, rfl, rfl, .inr ⟨hpaired, rfl, hs.begun begun' store.begun, hle⟩⟩

theorem exists_rounds (fuel : Nat) (rendering : Rendering) (store : Store) :
    ∃ last, (rounds fuel [rendering] store).1 = [last] :=
  List.length_eq_one_iff.1 (length_rounds fuel [rendering] store)

/-- The first advance of both decides. -/
theorem rounds_go (tracking : Tracking host ready first second Eq S)
    {state' : Option first.State} {state : Option second.State} (h : Option.Rel S state' state)
    (hs : other.Alike host store) (hle : ∀ id, store.isReady host id = true → ready id = true)
    (hlt : fuel < more) : Reach host S ready
      (rounds more [.underway first state' true] other)
      (rounds fuel [.underway second state true] store) := by
  have hexhausted : ∀ {reached : List Rendering × Store}, reached.1 = [.exhausted] →
      Reach host S ready (rounds more [.underway first state' true] other) reached := by
    intro reached he
    obtain ⟨ahead, ha⟩ := exists_rounds more (.underway first state' true) other
    exact ⟨ahead, .exhausted, ha, he, .inl rfl⟩
  cases fuel with
  | zero => exact hexhausted rfl
  | succ fuel =>
    obtain ⟨more, rfl⟩ : ∃ k, more = k + 1 := ⟨more - 1, by omega⟩
    have ha := tracking.advance [0] h hs hle
    rw [rounds_underway] at hexhausted
    rw [rounds_underway, rounds_underway]
    simp only [Rendering.advance] at hexhausted ⊢
    generalize first.advance [0] state' other = went at ha hexhausted
    generalize second.advance [0] state store = came at ha
    cases ha with
    | exhausted =>
      refine hexhausted ?_
      simp only [rounds_exhausted]
    | @ok text _ _ _ _ _ h hr hs =>
      subst h
      simp only [rounds_finished]
      exact ⟨_, _, rfl, rfl, .inr ⟨.finished (.ok text), rfl, hs, hr ▸ hle⟩⟩
    | failed error hr hs =>
      simp only [rounds_finished]
      exact ⟨_, _, rfl, rfl, .inr ⟨.finished (.error error), rfl, hs, hr ▸ hle⟩⟩
    | waiting h hr hs =>
      rw [← hr] at h hle
      exact rounds_waiting h.1 h.2.1 h.2.2 hs hle (by omega) _ _

theorem rounds_paired (tracking : Tracking host ready first second Eq S)
    (h : Paired S ahead behind) (hs : other.Alike host store)
    (hle : ∀ id, store.isReady host id = true → ready id = true) (hlt : fuel < more) :
    Reach host S ready (rounds more [ahead] other) (rounds fuel [behind] store) := by
  cases hn : behind.hasNews with
  | false =>
    have hahead : rounds more [ahead] other = ([ahead], other) :=
      rounds_of_quiet (by simp [h.hasNews_eq, hn]) _ _
    have hbehind : rounds fuel [behind] store = ([behind], store) :=
      rounds_of_quiet (by simp [hn]) _ _
    rw [hahead, hbehind]
    exact ⟨ahead, behind, rfl, rfl, .inr ⟨h, hn, hs, hle⟩⟩
  | true =>
    cases h with
    | underway h news =>
      obtain rfl : news = true := hn
      exact rounds_go tracking h hs hle hlt
    | finished => cases hn

/-- Both hear the same news. -/
theorem tell_paired (tracking : Tracking host ready first second Eq S) (h : Paired S ahead behind)
    (place : Place) : ∃ ahead' behind', tell place [ahead] = [ahead'] ∧
      tell place [behind] = [behind'] ∧ Paired S ahead' behind' := by
  simp only [tell]
  split
  · exact ⟨ahead, behind, rfl, rfl, h⟩
  · rename_i number path _
    cases number with
    | zero => exact ⟨_, _, rfl, rfl, h.hear tracking path⟩
    | succ number => exact ⟨ahead, behind, by simp, by simp, h⟩

theorem foldl_tell_paired (tracking : Tracking host ready first second Eq S)
    (h : Paired S ahead behind) (places : List Place) : ∃ ahead' behind',
      places.foldl (fun renders place => tell place renders) [ahead] = [ahead'] ∧
      places.foldl (fun renders place => tell place renders) [behind] = [behind'] ∧
      Paired S ahead' behind' := by
  induction places generalizing ahead behind with
  | nil => exact ⟨ahead, behind, rfl, rfl, h⟩
  | cons place places ih =>
    obtain ⟨ahead', behind', hahead, hbehind, hpaired⟩ := tell_paired tracking h place
    rw [List.foldl_cons, List.foldl_cons, hahead, hbehind]
    exact ih hpaired

/-- Two engines with one render each that stand so, and the same defaults. -/
structure InStep (host : Host) (S : first.State → second.State → Prop) (ready : PendingId → Bool)
    (ahead behind : Engine) : Prop where
  config : ahead.config = behind.config
  reach : Reach host S ready (ahead.renders, ahead.store) (behind.renders, behind.store)

theorem length_foldl_tell (places : List Place) (renders : List Rendering) :
    (places.foldl (fun renders place => tell place renders) renders).length = renders.length := by
  induction places generalizing renders with
  | nil => rfl
  | cons place places ih =>
    rw [List.foldl_cons, ih, tell]
    split
    · rfl
    · exact List.length_modify ..

theorem length_act {action : Action} (hne : ∀ request, action ≠ .start request) (engine : Engine)
    (fuel : Nat) : (engine.act host fuel action).renders.length = engine.renders.length := by
  cases action with
  | start request => exact absurd rfl (hne request)
  | release id =>
    exact (length_rounds _ _ _).trans (length_foldl_tell _ _)
  | compile | setTags | setEscape | clearCache => rfl

variable {engine other : Engine}

theorem exists_act {rendering : Rendering} (h : engine.renders = [rendering]) {action : Action}
    (hne : ∀ request, action ≠ .start request) (fuel : Nat) :
    ∃ last, (engine.act host fuel action).renders = [last] := by
  refine List.length_eq_one_iff.1 ?_
  rw [length_act hne, h, List.length_singleton]

/-- A render alone on its engine that has reached its bound leaves it at that. -/
theorem renders_act_exhausted (h : engine.renders = [.exhausted]) {action : Action}
    (hne : ∀ request, action ≠ .start request) (fuel : Nat) :
    (engine.act host fuel action).renders = [.exhausted] := by
  obtain ⟨last, hlast⟩ : ∃ last, (engine.act host fuel action).renders = [last] :=
    exists_act h hne fuel
  have hstays : (engine.act host fuel action).renders[0]? = some .exhausted :=
    act_of_ended (by rw [h]; rfl) (by simp [Rendering.status]) fuel action
  rw [hlast] at hstays ⊢
  simpa using hstays

/-- Two renders at rest and stores that are alike, after an action on both engines. -/
theorem reach_act (tracking : Tracking host ready first second Eq S)
    (hconfig : other.config = engine.config) (hother : other.renders = [ahead])
    (hengine : engine.renders = [behind]) (h : Paired S ahead behind) (hquiet : behind.hasNews = false)
    (hs : other.store.Alike host engine.store)
    (hle : ∀ id, engine.store.isReady host id = true → ready id = true) (hlt : fuel < more)
    {action : Action} (hne : ∀ request, action ≠ .start request)
    (hready : ∀ id, action = .release id → ready id = true) :
    Reach host S ready ((other.act host more action).renders, (other.act host more action).store)
      ((engine.act host fuel action).renders, (engine.act host fuel action).store) := by
  cases action with
  | start request => exact absurd rfl (hne request)
  | release id =>
    obtain ⟨ahead', behind', htold', htold, hpaired⟩ :=
      foldl_tell_paired tracking h (engine.store.seatsOf id).places
    have hle' : ∀ other, (engine.store.release id).isReady host other = true → ready other = true := by
      intro other hr
      rcases Store.isReady_release.1 hr with hr | rfl
      · exact hle other hr
      · exact hready _ rfl
    simp only [Engine.act, release, proceed, hother, hengine, hs.seats, htold', htold]
    exact rounds_paired tracking hpaired (hs.release id) hle' hlt
  | compile source tags =>
    have hcache := hs.setCache (hs.tidy.sound.fetch source (tags.getD engine.config.tags))
    simp only [Engine.act, fetch, hconfig, hs.cache]
    exact ⟨ahead, behind, hother, hengine, .inr ⟨h, hquiet, hcache, hle⟩⟩
  | setTags | setEscape => exact ⟨ahead, behind, hother, hengine, .inr ⟨h, hquiet, hs, hle⟩⟩
  | clearCache =>
    have hcache := hs.setCache (Cache.sound_clear engine.store.cache)
    simp only [Engine.act, clearCache, hs.cache]
    exact ⟨ahead, behind, hother, hengine, .inr ⟨h, hquiet, hcache, hle⟩⟩

theorem length_run {actions : List Action} (hne : ∀ request, .start request ∉ actions)
    (engine : Engine) (fuel : Nat) :
    (engine.run host fuel actions).renders.length = engine.renders.length := by
  induction actions generalizing engine with
  | nil => rfl
  | cons action actions ih =>
    obtain ⟨hfirst, hrest⟩ := Action.forall_start_notMem_cons.1 hne
    rw [run_cons, ih hrest, length_act hfirst]

theorem InStep.act (tracking : Tracking host ready first second Eq S)
    (h : InStep host S ready other engine) (hlt : fuel < more) {action : Action}
    (hne : ∀ request, action ≠ .start request)
    (hready : ∀ id, action = .release id → ready id = true) :
    InStep host S ready (other.act host more action) (engine.act host fuel action) := by
  refine ⟨by rw [config_act, config_act, h.config], ?_⟩
  obtain ⟨hconfig, ahead, behind, hother, hengine, rfl | ⟨hpaired, hquiet, hs, hle⟩⟩ := h
  · obtain ⟨last, hlast⟩ := exists_act hother hne more
    exact ⟨last, .exhausted, hlast, renders_act_exhausted hengine hne fuel, .inl rfl⟩
  · exact reach_act tracking hconfig hother hengine hpaired hquiet hs hle hlt hne hready

theorem InStep.run (tracking : Tracking host ready first second Eq S)
    (h : InStep host S ready other engine) (hlt : fuel < more) {actions : List Action}
    (hne : ∀ request, .start request ∉ actions)
    (hready : ∀ id, .release id ∈ actions → ready id = true) :
    InStep host S ready (other.run host more actions) (engine.run host fuel actions) := by
  induction actions generalizing other engine with
  | nil => exact h
  | cons action actions ih =>
    obtain ⟨hfirst, hrest⟩ := Action.forall_start_notMem_cons.1 hne
    refine ih (h.act tracking hlt hfirst ?_) hrest fun id hm => hready id (.tail _ hm)
    rintro id rfl
    exact hready id (.head _)

theorem InStep.same (h : InStep host S ready other engine) (hne : .exhausted ∉ engine.statuses) :
    other.statuses = engine.statuses ∧ other.store.cache = engine.store.cache := by
  obtain ⟨-, ahead, behind, hother, hengine, rfl | ⟨hpaired, -, hs, -⟩⟩ := h
  · exact absurd (by simp [statuses, show engine.renders = _ from hengine, Rendering.status]) hne
  · refine ⟨?_, hs.cache⟩
    rw [statuses, statuses, show other.renders = _ from hother, show engine.renders = _ from hengine,
      List.map_singleton, List.map_singleton, hpaired.status_eq]

/-- No render has been started. -/
structure Vacant (host : Host) (ready : PendingId → Bool) (engine : Engine) : Prop where
  renders : engine.renders = []
  tidy : engine.store.Tidy host
  bound : ∀ id, engine.store.isReady host id = true → ready id = true

theorem Vacant.act (h : engine.Vacant host ready) {action : Action}
    (hne : ∀ request, action ≠ .start request)
    (hready : ∀ id, action = .release id → ready id = true) (fuel more : Nat) :
    (engine.act host fuel action).Vacant host ready ∧
      engine.act host more action = engine.act host fuel action := by
  obtain ⟨hrenders, htidy, hbound⟩ := h
  cases action with
  | start request => exact absurd rfl (hne request)
  | release id =>
    have hrelease : ∀ fuel, engine.act host fuel (.release id) =
        { engine with store := engine.store.release id } :=
      fun fuel => release_of_over (by simp [hrenders]) fuel id
    rw [hrelease, hrelease]
    refine ⟨⟨hrenders, htidy.release id, fun other hr => ?_⟩, rfl⟩
    rcases Store.isReady_release.1 hr with hr | rfl
    · exact hbound other hr
    · exact hready _ rfl
  | compile source tags =>
    exact ⟨⟨hrenders, htidy.setCache (htidy.sound.fetch _ _), hbound⟩, rfl⟩
  | setTags | setEscape => exact ⟨⟨hrenders, htidy, hbound⟩, rfl⟩
  | clearCache => exact ⟨⟨hrenders, htidy.setCache (Cache.sound_clear _), hbound⟩, rfl⟩

theorem Vacant.run (h : engine.Vacant host ready) {actions : List Action}
    (hne : ∀ request, .start request ∉ actions)
    (hready : ∀ id, .release id ∈ actions → ready id = true) (fuel more : Nat) :
    (engine.run host fuel actions).Vacant host ready ∧
      engine.run host more actions = engine.run host fuel actions := by
  induction actions generalizing engine with
  | nil => exact ⟨h, rfl⟩
  | cons action actions ih =>
    obtain ⟨hfirst, hrest⟩ := Action.forall_start_notMem_cons.1 hne
    have hrelease : ∀ id, action = .release id → ready id = true := by
      rintro id rfl
      exact hready id (.head _)
    obtain ⟨hact, hsame⟩ := h.act hfirst hrelease fuel more
    rw [run_cons, run_cons, hsame]
    exact ih hact hrest fun id hm => hready id (.tail _ hm)

/-- The first renders of two engines. -/
theorem Vacant.start (h : engine.Vacant host ready) {request covering : Request}
    {T : ((covering.plan more engine.config).process host).State →
      ((request.plan fuel engine.config).process host).State → Prop}
    (tracking : Tracking host ready ((covering.plan more engine.config).process host)
      ((request.plan fuel engine.config).process host) Eq T) (hlt : fuel < more) :
    InStep host T ready (engine.start host more covering) (engine.start host fuel request) := by
  refine ⟨rfl, ?_⟩
  simp only [Engine.start, proceed, h.renders, List.nil_append]
  exact rounds_paired tracking (.underway .none true) h.tidy.alike h.bound hlt

theorem vacant_new (config : Config) (hr : ∀ id, (host.pending id).manual = false → ready id = true) :
    (new config).Vacant host ready := by
  refine ⟨rfl, Store.tidy_empty host, fun id hid => hr id ?_⟩
  simpa [new, Store.isReady, Store.empty] using hid

section Alone
variable (config : Config) {front back : List Action} {request covering : Request}

/-- The two go on in step as long as their processes do. -/
theorem run_inStep (hlt : fuel < more) (hfront : ∀ other, .start other ∉ front)
    (hback : ∀ other, .start other ∉ back)
    (h : Process.Tracks host (Action.ready host (front ++ .start request :: back))
      ((covering.plan more (front.foldl Action.config config)).process host)
      ((request.plan fuel (front.foldl Action.config config)).process host) Eq) :
    ∃ (first second : Process Text) (S : first.State → second.State → Prop),
      InStep host S (Action.ready host (front ++ .start request :: back))
      ((new config).run host more (front ++ .start covering :: back))
      ((new config).run host fuel (front ++ .start request :: back)) := by
  have hready : ∀ id, .release id ∈ front ++ back →
      Action.ready host (front ++ .start request :: back) id = true := by
    intro id hid
    rw [Action.ready_iff]
    right
    simpa using hid
  have hnew : (new config).Vacant host (Action.ready host (front ++ .start request :: back)) :=
    vacant_new config fun id hm => Action.ready_iff.2 (.inl hm)
  obtain ⟨hbefore, hsame⟩ := hnew.run hfront
    (fun id hid => hready id (List.mem_append_left _ hid)) fuel more
  have hconfig : ((new config).run host fuel front).config = front.foldl Action.config config :=
    config_run host (new config) fuel front
  rw [← hconfig] at h
  obtain ⟨T, tracking⟩ := h
  refine ⟨_, _, T, ?_⟩
  rw [run_append, run_append, run_cons, run_cons, hsame]
  refine InStep.run tracking (hbefore.start tracking hlt) hlt hback ?_
  exact fun id hid => hready id (List.mem_append_right _ hid)

/-- The one render of a run. -/
theorem statuses_alone (hfront : ∀ other, .start other ∉ front) (hback : ∀ other, .start other ∉ back)
    (fuel : Nat) (request : Request) : ∃ status,
      ((new config).run host fuel (front ++ .start request :: back)).statuses = [status] := by
  refine List.length_eq_one_iff.1 ?_
  rw [statuses, List.length_map, run_append, run_cons, length_run hback]
  simp only [Engine.act, Engine.start, proceed]
  rw [length_rounds, List.length_append, length_run hfront]
  rfl

theorem exists_stands (hp : host.Pure) (bound : Option Error)
    (hfront : ∀ other, .start other ∉ front) (hback : ∀ other, .start other ∉ back) {status : Status}
    (h : ((new config).run host fuel (front ++ .start request :: back)).statuses = [status]) :
    ∃ late, status.Stands host bound (request.plan fuel (front.foldl Action.config config))
      (Action.ready host (front ++ .start request :: back)) late := by
  have hstarts : Action.starts config (front ++ .start request :: back) =
      [(request, front.foldl Action.config config)] := by
    simp [Action.starts_append, Action.starts_eq_nil hfront, Action.starts, Action.start?,
      Action.starts_eq_nil hback]
  obtain ⟨hsound, hready⟩ := sound_run_new hp fuel config (front ++ .start request :: back)
  have hnew : AllKeep hp bound (fun _ => False) [] 0 (new config).store (new config).renders := .nil
  obtain ⟨late, hkeep⟩ := AllKeep.run (sound_new hp config) hnew fuel (front ++ .start request :: back)
  have hn : (plans fuel (Action.starts config (front ++ .start request :: back)))[0]? =
      some (request.plan fuel (front.foldl Action.config config)) := by
    rw [hstarts]
    rfl
  obtain ⟨only, honly, hstands⟩ := AllKeep.stands hsound hkeep hn
  rw [h] at honly
  obtain rfl : status = only := by simpa using honly
  rw [hready] at hstands
  exact ⟨_, hstands⟩

end Alone

end Engine

section Stands
variable {plan other : Plan Text} {late later last : Prop} {error : Error} {first second : Status}

/-- Renders whose plans do the same but for values that are there: the same status, or both failed. -/
theorem Status.Stands.of_sheds (hplan : second.Stands host none plan ready last)
    (h : Plan.Sheds host Eq plan other)
    (hr : ∀ id, (host.pending id).manual = false → ready id = true)
    (hother : first.Stands host none other ready late)
    (hbound : first.Stands host (some error) other ready later) (hne₁ : first ≠ .exhausted)
    (hne₂ : second ≠ .exhausted) : second = first ∨
      ∃ error other, first = .finished (.error error) ∧ second = .finished (.error other) := by
  match first, second with
  | .exhausted, _ => exact absurd rfl hne₁
  | _, .exhausted => exact absurd rfl hne₂
  | .waiting, second =>
    obtain ⟨hnone, hfails⟩ := h.waits hr hbound.1 hbound.2
    match second with
    | .waiting => exact .inl rfl
    | .finished (.ok text) =>
      have hc := hnone.symm.trans hplan
      cases hc
    | .finished (.error error) =>
      have hs := hplan.2.1
      rw [hfails] at hs
      cases hs
  | .finished (.ok text), second =>
    obtain ⟨_, hresult, rfl⟩ := h.exists_result? hr hother
    match second with
    | .waiting =>
      have hc := hplan.1.symm.trans hresult
      cases hc
    | .finished (.ok text) =>
      have hc := Eq.trans (Eq.symm hplan) hresult
      cases hc
      exact .inl rfl
    | .finished (.error error) => exact absurd hplan.1 (Plan.not_faults_of_result? hresult error)
  | .finished (.error error), second =>
    have hfails := h.isSome_failure? hr hother.2.1
    match second with
    | .waiting =>
      rw [hplan.2] at hfails
      cases hfails
    | .finished (.ok text) =>
      have hc := (Plan.result?_of_isSome_failure? hfails).symm.trans hplan
      cases hc
    | .finished (.error other) => exact .inr ⟨error, other, rfl, rfl⟩

end Stands

namespace Engine

/-- A render alone on its engine comes to what it comes to when parts of its view are wrapped in values
that are there, under a bound that leaves room for the layers: after any further actions it stands
the same and the caches hold the same. This is so as long as no member of a large join asks for a
value that may have to wait. In any case it waits in both runs, or has come to the same text, or has
failed, and then perhaps with different errors. Of a render that reaches its bound nothing is told. -/
theorem run_wrapped (host : Host) {n fuel more : Nat} {request : Request} {view : Value}
    (hwraps : Value.Wraps host n view request.view) (hfree : request.view.LambdaFree host)
    (hlt : fuel + n < more) (config : Config) {front back : List Action}
    (hfront : ∀ other, .start other ∉ front) (hback : ∀ other, .start other ∉ back) :
    let inForce := front.foldl Action.config config
    let plan := request.plan fuel inForce
    let ready := Action.ready host (front ++ .start request :: back)
    let plain := (new config).run host fuel (front ++ .start request :: back)
    let wrapped := (new config).run host more (front ++ .start { request with view } :: back)
    ∃ first second, plain.statuses = [first] ∧ wrapped.statuses = [second] ∧
      (first ≠ .exhausted → (∀ id, (host.pending id).manual = false) ∨ ¬ plan.Stalls host ready →
        second = first ∧ wrapped.store.cache = plain.store.cache) ∧
      (host.Pure → first ≠ .exhausted → second ≠ .exhausted →
        second = first ∨ ∃ error other,
          first = .finished (.error error) ∧ second = .finished (.error other)) := by
  intro inForce plan ready plain wrapped
  obtain ⟨first, hfirst⟩ : ∃ first, plain.statuses = [first] :=
    statuses_alone config hfront hback fuel request
  obtain ⟨second, hsecond⟩ : ∃ second, wrapped.statuses = [second] :=
    statuses_alone config hfront hback more { request with view }
  have hsheds := Request.sheds_plan ⟨hwraps, hfree⟩ hlt.le inForce
  have hlt' : fuel < more := by omega
  have hready : Action.ready host (front ++ .start { request with view } :: back) = ready :=
    Action.ready_congr fun id => by simp
  refine ⟨first, second, hfirst, hsecond, fun hne hcase => ?_, fun hp hne₁ hne₂ => ?_⟩
  · have hstalls : ¬ plan.Stalls host ready := hcase.elim (fun hm => Plan.not_stalls hm ready plan) id
    have htracks := (hsheds.tracks hstalls).imp fun _ _ h => h.1
    obtain ⟨_, _, _, hstep⟩ := run_inStep config hlt' hfront hback htracks
    have hne' : .exhausted ∉ plain.statuses := by
      rw [hfirst]
      simpa using hne.symm
    have hsame : wrapped.statuses = plain.statuses ∧ wrapped.store.cache = plain.store.cache :=
      hstep.same hne'
    rw [hfirst, hsecond] at hsame
    exact ⟨List.singleton_inj.1 hsame.1, hsame.2⟩
  · have hr : ∀ id, (host.pending id).manual = false → ready id = true := fun id hm =>
      Action.ready_iff.2 (.inl hm)
    obtain ⟨_, hplain⟩ := exists_stands config hp none hfront hback hfirst
    obtain ⟨_, hbound⟩ := exists_stands config hp (some (.valueFailed [])) hfront hback hfirst
    obtain ⟨_, hwrapped⟩ := exists_stands config hp none hfront hback hsecond
    rw [hready] at hwrapped
    exact hwrapped.of_sheds hsheds hr hplain hbound hne₁ hne₂

/-- Two manual values and one that fails are the view's own; the others wrap something. -/
def threeWrap : Host where
  pending
    | 0 => ⟨.ok (.string ['a']), true⟩
    | 1 => ⟨.ok (.pending 0), false⟩
    | 2 => ⟨.ok (.string ['b']), false⟩
    | 3 => ⟨.ok (.list [.pending 2, .string ['c']]), false⟩
    | 4 => ⟨.ok (.map [(['x'], .pending 1), (['y'], .pending 3)]), false⟩
    | _ => ⟨.ok .null, false⟩
  inline _ _ := .null
  block _ _ _ := .value .null

/-- A render that shows a manual value and a list. -/
def listShown : Request where
  template := .string "{{x}}{{y}}".toList
  view := .map [(['x'], .pending 0), (['y'], .list [.string ['b'], .string ['c']])]
  partials := .empty
  tags := none
  escape := none

theorem wraps_listShown : Value.Wraps threeWrap 5 (.pending 4) listShown.view := by
  refine .pending rfl rfl (.map (.cons ⟨rfl, ?_⟩ (.cons ⟨rfl, ?_⟩ .nil)))
  · exact .pending rfl rfl (.same _)
  · refine .pending rfl rfl (.list (.cons ?_ (.cons (.same _) .nil)))
    exact .pending rfl rfl rfl

theorem not_stalls_listShown (ready : PendingId → Bool) :
    ¬ (listShown.plan 2 default).Stalls threeWrap ready := by
  rintro ⟨nodes, hn, hq⟩
  obtain rfl := Except.ok.inj (hn.symm.trans compile_bothShown)
  rcases hq with ⟨hlarge, -⟩ | ⟨⟨i, hi⟩, hq⟩ | ⟨_, -, hq⟩
  · exact absurd hlarge (by decide)
  · match i, hi with
    | 0, _ =>
      obtain ⟨-, v, hv, hq⟩ := hq
      cases hv
      exact hq.elim
    | 1, _ => exact hq.elim
  · exact hq.elim

/-- The root, an element of the list and both entries wrapped, one of them a value that has to wait. -/
theorem run_wrapped_listShown :
    let front := [.compile "{{x}}".toList none]
    let back := [.release 0]
    let plain := (new default).run threeWrap 2 (front ++ .start listShown :: back)
    let wrapped := (new default).run threeWrap 8
      (front ++ .start { listShown with view := .pending 4 } :: back)
    threeWrap.Pure ∧ listShown.view.LambdaFree threeWrap ∧
      plain.statuses = [.finished (.ok "ab,c".toList)] ∧
      wrapped.statuses = plain.statuses ∧ wrapped.store.cache = plain.store.cache := by
  intro front back plain wrapped
  have hp : threeWrap.Pure := ⟨fun _ _ _ => rfl, fun _ _ _ _ => rfl⟩
  have hfree : listShown.view.LambdaFree threeWrap := by
    simp [listShown, threeWrap]
  have hfront : ∀ other, .start other ∉ front := by simp [front]
  have hback : ∀ other, .start other ∉ back := by simp [back]
  have hplain : plain.statuses = [.finished (.ok "ab,c".toList)] := by decide +kernel
  obtain ⟨first, second, hfirst, hsecond, hsame, -⟩ :=
    run_wrapped threeWrap wraps_listShown hfree (by decide : 2 + 5 < 8) default hfront hback
  obtain rfl : first = .finished (.ok "ab,c".toList) := by
    simpa using hfirst.symm.trans hplain
  obtain ⟨rfl, hcache⟩ := hsame nofun (.inr (not_stalls_listShown _))
  exact ⟨hp, hfree, hplain, hsecond.trans hplain.symm, hcache⟩

/-- Three manual values, two that fail, and two that wrap the last of the manual ones. -/
def twoFail : Host where
  pending
    | 0 | 1 => ⟨.ok (.bool true), true⟩
    | 2 => ⟨.ok (.string ['w']), true⟩
    | 3 => ⟨.error (.valueFailed "one".toList), false⟩
    | 4 => ⟨.error (.valueFailed "two".toList), false⟩
    | 5 | 6 => ⟨.ok (.pending 2), false⟩
    | _ => ⟨.ok .null, false⟩
  inline _ _ := .null
  block _ _ _ := .value .null

/-- A section with the items of a large join, three of which come to wait for a value, beside a section
that waits for it too. Two of the items show the given values then. -/
def waitingItems (shown other : Value) : Request where
  template := .string "{{#l}}{{#k}}{{#m}}{{x}}{{/m}}{{/k}}{{/l}}{{#m}}{{e}}{{/m}}".toList
  view := .map [(['m'], .pending 0), (['e'], .pending 4),
    (['l'], .list ([.map [(['k'], .pending 1), (['x'], .pending 3)],
        .map [(['k'], .bool true), (['x'], shown)], .map [(['k'], .bool true), (['x'], other)]] ++
      List.replicate 28 (.string [])))]
  partials := .empty
  tags := none
  escape := none

theorem wraps_waitingItems : Value.Wraps twoFail 4 (waitingItems (.pending 5) (.pending 6)).view
    (waitingItems (.pending 2) (.pending 2)).view := by
  have hshown : ∀ id, (twoFail.pending id).manual = false →
      (twoFail.pending id).result = .ok (.pending 2) →
      Value.Wraps twoFail 2 (.map [(['k'], .bool true), (['x'], .pending id)])
        (.map [(['k'], .bool true), (['x'], .pending 2)]) :=
    fun id hm hr => .map (.cons ⟨rfl, .same _⟩ (.cons ⟨rfl, .pending hm hr rfl⟩ .nil))
  refine .map (.cons ⟨rfl, .same _⟩ (.cons ⟨rfl, .same _⟩ (.cons ⟨rfl, .list ?_⟩ .nil)))
  refine List.rel_append ?_ (List.forall₂_same.2 fun v _ => Value.wraps_self twoFail 2 v)
  exact .cons (.same _) (.cons (hshown 5 rfl rfl) (.cons (hshown 6 rfl rfl) .nil))

/-- The items with a value to unwrap have news once more, so that the large join gives way before the
first item has its turn, and another failure is met first. -/
theorem run_wrapped_waitingItems :
    let request := waitingItems (.pending 2) (.pending 2)
    let view := (waitingItems (.pending 5) (.pending 6)).view
    let plain := (new default).run twoFail 4 [.start request, .release 1, .release 0]
    let wrapped := (new default).run twoFail 9
      [.start { request with view }, .release 1, .release 0]
    Value.Wraps twoFail 4 view request.view ∧ request.view.LambdaFree twoFail ∧
      plain.statuses = [.finished (.error (.valueFailed "one".toList))] ∧
      wrapped.statuses = [.finished (.error (.valueFailed "two".toList))] := by
  refine ⟨wraps_waitingItems, by simp [waitingItems, twoFail], ?_, ?_⟩
  · decide +kernel
  · decide +kernel

end Engine
end Stencil
