import Mathlib
import Stencil.Proofs.Direct.Engine
import Stencil.Proofs.Engine.Sound
import Stencil.Proofs.Process.Blind
import Stencil.Proofs.Template.Balance

/-!
# The cache is invisible

In every state that an engine can reach the cache holds what has been compiled since it was cleared
last, each key once with its own template. Nothing but the entries themselves depends on what it
holds: a run goes on alike under every sound cache. So where nobody waits and lambdas answer the same
at each call, a render on an engine with any past comes to what it comes to on a new one.
-/

namespace Stencil

open Cache (Asks asks_nothing)

/-- Only under a valid pair does anything compile. -/
theorem Template.valid_of_compile {source : Text} {tags : Tags} {nodes : List Node}
    (h : Template.compile source tags = .ok nodes) : tags.Valid := by
  obtain ⟨pieces, hr, -⟩ := Template.exists_compile_iff.1 ⟨nodes, h⟩
  cases hr with
  | text valid | tag valid => exact valid

variable {host : Host}

namespace Rendering

/-- A render that cannot tell one sound cache from another. -/
def Blind : Rendering → Prop
  | .underway process _ _ => process.Blind
  | _ => True

theorem Blind.hear {rendering : Rendering} (h : rendering.Blind) (path : List Nat) :
    (rendering.hear path).Blind := by
  cases rendering <;> exact h

theorem Blind.stop {rendering : Rendering} (h : rendering.Blind) : rendering.stop.Blind := by
  rw [Rendering.stop]
  split
  · trivial
  · exact h

/-- The same renders, with another cache in the store. -/
def under {γ : Type*} (renders : γ × Store) (cache : Cache) : γ × Store :=
  (renders.1, renders.2.under cache)

theorem Blind.advance {rendering : Rendering} (h : rendering.Blind) (number : Nat) (store : Store) :
    (rendering.advance number store).1.Blind ∧
      Asks under fun cache => rendering.advance number (store.under cache) := by
  cases rendering with
  | finished outcome => exact ⟨h, asks_nothing (_, store) fun _ => rfl⟩
  | exhausted => exact ⟨h, asks_nothing (_, store) fun _ => rfl⟩
  | underway process state news =>
    cases news with
    | false => exact ⟨h, asks_nothing (_, store) fun _ => rfl⟩
    | true =>
      constructor
      · simp only [Rendering.advance]
        split
        · trivial
        · trivial
        · exact h
      · obtain ⟨⟨reached, news, after⟩, keys, hsame⟩ :=
          Process.Blind.advance h [number] state store
        cases reached with
        | ended outcome =>
          refine ⟨(.finished outcome, after), keys, fun cache hs => ?_⟩
          simp only [Rendering.advance, hsame cache hs, Advance.under, under]
        | exhausted =>
          refine ⟨(.exhausted, after), keys, fun cache hs => ?_⟩
          simp only [Rendering.advance, hsame cache hs, Advance.under, under]
        | waiting later =>
          refine ⟨(.underway process (some later) news, after), keys, fun cache hs => ?_⟩
          simp only [Rendering.advance, hsame cache hs, Advance.under, under]

end Rendering

namespace Engine

open Rendering (under)

variable {renders : List Rendering}

theorem round_blind (h : ∀ rendering ∈ renders, rendering.Blind) (number : Nat) (store : Store) :
    (∀ rendering ∈ (round number renders store).1, rendering.Blind) ∧
      Asks under fun cache => round number renders (store.under cache) := by
  induction renders generalizing number store with
  | nil => exact ⟨h, asks_nothing ([], store) fun _ => rfl⟩
  | cons rendering renders ih =>
    rw [List.forall_mem_cons] at h
    obtain ⟨hfirst, hasks⟩ := h.1.advance number store
    refine ⟨?_, ?_⟩
    · simp only [round, List.forall_mem_cons]
      exact ⟨hfirst, (ih h.2 _ _).1⟩
    · obtain ⟨⟨advanced, after⟩, keys, hsame⟩ := hasks
      have hrest := (ih h.2 (number + 1) after).2.map under
        (fun rest : List Rendering × Store => (advanced :: rest.1, rest.2)) fun _ _ => rfl
      refine hrest.after keys fun cache hs => ?_
      simp only [round, hsame cache hs, under]

theorem rounds_blind (h : ∀ rendering ∈ renders, rendering.Blind) (fuel : Nat) (store : Store) :
    (∀ rendering ∈ (rounds fuel renders store).1, rendering.Blind) ∧
      Asks under fun cache => rounds fuel renders (store.under cache) := by
  induction fuel generalizing renders store with
  | zero =>
    refine ⟨fun rendering hr => ?_, asks_nothing (renders.map Rendering.stop, store) fun _ => rfl⟩
    obtain ⟨earlier, he, rfl⟩ := List.mem_map.1 hr
    exact (h earlier he).stop
  | succ fuel ih =>
    by_cases hn : renders.any Rendering.hasNews = true
    · simp only [rounds, hn, if_true]
      refine ⟨(ih (round_blind h 0 store).1 _).1, ?_⟩
      obtain ⟨⟨later, after⟩, keys, hsame⟩ := (round_blind h 0 store).2
      have hlater : ∀ rendering ∈ later, rendering.Blind := by
        have hround : round 0 renders (store.under .empty) = under (later, after) _ :=
          hsame .empty Cache.sound_empty
        have hblind := (round_blind h 0 (store.under .empty)).1
        rwa [hround] at hblind
      refine (ih hlater after).2.after keys fun cache hs => ?_
      simp only [hsame cache hs, under]
    · simp only [rounds, hn]
      exact ⟨h, asks_nothing (renders, store) fun _ => rfl⟩

/-- No render can tell one sound cache from another. -/
def Blind (engine : Engine) : Prop :=
  ∀ rendering ∈ engine.renders, rendering.Blind

/-- The same engine, with another cache. -/
def under (engine : Engine) (cache : Cache) : Engine :=
  { engine with store := engine.store.under cache }

variable {engine : Engine}

theorem blind_new (config : Config) : (new config).Blind := by
  simp [Blind, new]

theorem Blind.proceed (h : engine.Blind) (fuel : Nat) :
    (engine.proceed fuel).Blind ∧ Asks Engine.under fun cache => (engine.under cache).proceed fuel := by
  obtain ⟨hblind, hasks⟩ := rounds_blind h fuel engine.store
  exact ⟨hblind, hasks.map Engine.under
    (fun reached => { engine with renders := reached.1, store := reached.2 }) fun _ _ => rfl⟩

theorem blind_tell (h : ∀ rendering ∈ renders, rendering.Blind) (place : Place) :
    ∀ rendering ∈ tell place renders, rendering.Blind := by
  rw [tell]
  split
  · exact h
  · rename_i number path _
    intro rendering hr
    obtain ⟨n, hn, rfl⟩ := List.mem_iff_getElem.1 hr
    rw [List.getElem_modify]
    have hlt : n < renders.length := by simpa using hn
    have hearlier := h renders[n] (List.getElem_mem hlt)
    split
    · exact hearlier.hear path
    · exact hearlier

theorem blind_foldl_tell (h : ∀ rendering ∈ renders, rendering.Blind) (places : List Place) :
    ∀ rendering ∈ places.foldl (fun renders place => tell place renders) renders,
      rendering.Blind := by
  induction places generalizing renders with
  | nil => exact h
  | cons place places ih => exact ih (blind_tell h place)

/-- What an action does to the cache is to fetch templates, the same ones whatever the cache holds,
unless it clears it. -/
theorem Blind.act (h : engine.Blind) (fuel : Nat) (action : Action) :
    (engine.act host fuel action).Blind ∧ (action ≠ .clearCache →
      Asks Engine.under fun cache => (engine.under cache).act host fuel action) := by
  cases action with
  | start request =>
    have hstarted : Engine.Blind { engine with renders := engine.renders ++
        [.underway ((request.plan fuel engine.config).process host) none true] } := by
      intro rendering hr
      rcases List.mem_append.1 hr with hr | hr
      · exact h rendering hr
      · obtain rfl := List.mem_singleton.1 hr
        exact Plan.blind host _
    exact ⟨(hstarted.proceed fuel).1, fun _ => (hstarted.proceed fuel).2⟩
  | release id =>
    have htold : Engine.Blind { engine with
        store := engine.store.release id
        renders := (engine.store.seatsOf id).places.foldl (fun renders place => tell place renders)
          engine.renders } := blind_foldl_tell h _
    exact ⟨(htold.proceed fuel).1, fun _ => (htold.proceed fuel).2⟩
  | compile source tags =>
    exact ⟨h, fun _ => ⟨engine, [(source, tags.getD engine.config.tags)], fun _ _ => rfl⟩⟩
  | setTags tags => exact ⟨h, fun _ => asks_nothing (engine.setTags tags) fun _ => rfl⟩
  | setEscape escape => exact ⟨h, fun _ => asks_nothing (engine.setEscape escape) fun _ => rfl⟩
  | clearCache => exact ⟨h, fun hne => absurd rfl hne⟩

theorem Blind.run (h : engine.Blind) (fuel : Nat) (actions : List Action) :
    (engine.run host fuel actions).Blind := by
  induction actions generalizing engine with
  | nil => exact h
  | cons action actions ih => exact ih (h.act fuel action).1

variable (host) in
/-- An action on an engine, and the same action under another cache. -/
theorem Blind.act_under (h : engine.Blind) (hs : engine.store.cache.Sound) (fuel : Nat)
    {action : Action} (hne : action ≠ .clearCache) : ∃ wanted,
      (engine.act host fuel action).store.cache = engine.store.cache.fetchAll wanted ∧
      ∀ cache : Cache, cache.Sound → (engine.under cache).act host fuel action =
        (engine.act host fuel action).under (cache.fetchAll wanted) := by
  obtain ⟨same, wanted, hsame⟩ := (h.act fuel action).2 hne
  have hown : engine.act host fuel action = same.under (engine.store.cache.fetchAll wanted) :=
    hsame engine.store.cache hs
  rw [hown]
  exact ⟨wanted, rfl, hsame⟩

/-- A run goes on alike under every sound cache. -/
theorem Blind.run_under (h : engine.Blind) (hs : engine.store.cache.Sound) {cache : Cache}
    (hc : cache.Sound) (fuel : Nat) (actions : List Action) :
    ((engine.under cache).run host fuel actions).statuses =
      (engine.run host fuel actions).statuses := by
  induction actions generalizing engine cache with
  | nil => rfl
  | cons action actions ih =>
    rw [run_cons, run_cons]
    have hblind : (engine.act host fuel action).Blind := (h.act fuel action).1
    by_cases hne : action = .clearCache
    · subst action
      exact ih hblind (Cache.sound_clear _) (Cache.sound_clear cache)
    · obtain ⟨wanted, hown, hact⟩ := h.act_under host hs fuel hne
      rw [hact cache hc]
      exact ih hblind (hown ▸ hs.fetchAll wanted) (hc.fetchAll wanted)

/-- The keys that an action compiles where nothing has been compiled before. -/
def compiled (host : Host) (fuel : Nat) (engine : Engine) (action : Action) : List (Text × Tags) :=
  (engine.clearCache.act host fuel action).store.cache.keys

/-- The keys compiled since the cache was cleared last, one more action considered. -/
def tally (host : Host) (fuel : Nat) (engine : Engine) (earlier : List (Text × Tags)) :
    Action → List (Text × Tags)
  | .clearCache => []
  | action => earlier ++ engine.compiled host fuel action

/-- The keys compiled since the cache was cleared last, after a run. -/
def compiledSince (host : Host) (fuel : Nat) : Engine → List (Text × Tags) → List Action →
    List (Text × Tags)
  | _, earlier, [] => earlier
  | engine, earlier, action :: actions =>
    compiledSince host fuel (engine.act host fuel action) (engine.tally host fuel earlier action)
      actions

/-- What holds of the cache of an engine when these keys have been compiled since it was cleared. -/
structure Cached (engine : Engine) (earlier : List (Text × Tags)) : Prop where
  blind : engine.Blind
  sound : engine.store.cache.Sound
  nodup : engine.store.cache.keys.Nodup
  has : ∀ source tags, engine.store.cache.Has source tags ↔ (source, tags) ∈ earlier

variable {earlier : List (Text × Tags)}

theorem cached_new (config : Config) : (new config).Cached [] :=
  ⟨blind_new config, Cache.sound_empty, List.nodup_nil,
    fun source tags => by simp [new, Store.empty, Cache.empty, Cache.Has]⟩

theorem cached_clear (h : engine.Blind) : engine.clearCache.Cached [] :=
  ⟨h, Cache.sound_clear _, List.nodup_nil,
    fun source tags => by simp [clearCache, Cache.clear, Cache.Has]⟩

theorem Cached.act (h : engine.Cached earlier) (fuel : Nat) (action : Action) :
    (engine.act host fuel action).Cached (engine.tally host fuel earlier action) := by
  by_cases hne : action = .clearCache
  · subst action
    exact cached_clear h.blind
  · obtain ⟨wanted, hown, hact⟩ := h.blind.act_under host h.sound fuel hne
    have hclear : (engine.clearCache.act host fuel action).store.cache =
        engine.store.cache.clear.fetchAll wanted :=
      congrArg (fun engine => engine.store.cache) (hact _ (Cache.sound_clear _))
    have htally : engine.tally host fuel earlier action =
        earlier ++ engine.compiled host fuel action := by
      cases action <;> first | rfl | exact absurd rfl hne
    refine ⟨(h.blind.act fuel action).1, hown ▸ h.sound.fetchAll wanted,
      hown ▸ Cache.nodup_keys_fetchAll h.nodup wanted, fun source tags => ?_⟩
    have hnothing : ¬ engine.store.cache.clear.Has source tags := by
      simp [Cache.clear, Cache.Has]
    rw [hown, h.sound.has_fetchAll, h.has, htally, List.mem_append, compiled, Cache.mem_keys,
      hclear, (Cache.sound_clear _).has_fetchAll, or_iff_right hnothing]

theorem Cached.run (h : engine.Cached earlier) (fuel : Nat) (actions : List Action) :
    (engine.run host fuel actions).Cached (engine.compiledSince host fuel earlier actions) := by
  induction actions generalizing engine earlier with
  | nil => exact h
  | cons action actions ih => exact ih (h.act fuel action)

/-- There are as many entries as different keys. -/
theorem Cached.size_eq (h : engine.Cached earlier) :
    engine.store.cache.size = earlier.dedup.length := by
  have hperm : engine.store.cache.keys.Perm earlier.dedup := by
    refine (List.perm_ext_iff_of_nodup h.nodup (List.nodup_dedup _)).2 fun key => ?_
    rw [List.mem_dedup, ← h.has key.1 key.2]
    exact Cache.mem_keys
  rw [← hperm.length_eq, Cache.keys, List.length_map, Cache.size]

end Engine

namespace Direct

variable {α β : Type}

/-- What a computation comes to does not depend on what has been done before. -/
def Steady (direct : Direct α) : Prop :=
  ∀ ledger other, (direct.outcome ledger).1 = (direct.outcome other).1

theorem Steady.bind {direct : Direct α} {next : α → Direct β} (h : direct.Steady)
    (hnext : ∀ a, (next a).Steady) : (direct >>= next).Steady := by
  intro ledger other
  have hsame := h ledger other
  rw [outcome_bind, outcome_bind]
  rcases hl : direct.outcome ledger with ⟨outcome, after⟩
  rcases ho : direct.outcome other with ⟨outcome', after'⟩
  obtain rfl : outcome = outcome' := by simpa [hl, ho] using hsame
  cases outcome with
  | ok result => exact hnext result after after'
  | error stop => rfl

theorem steady_mapM {ι : Type*} {f : ι → Direct β} (h : ∀ i, (f i).Steady) (is : List ι) :
    (is.mapM f).Steady := by
  induction is with
  | nil => exact fun _ _ => rfl
  | cons i is ih =>
    rw [List.mapM_cons]
    exact (h i).bind fun _ => ih.bind fun _ _ _ => rfl

theorem steady_await (id : PendingId) : (await host id).Steady := by
  intro ledger other
  cases hr : (host.pending id).result <;> simp [await, outcome, hr] <;> rfl

theorem steady_compile (source : Text) (tags : Tags) : (compile source tags).Steady := by
  intro ledger other
  cases hc : Template.compile source tags <;> simp only [compile, hc] <;> rfl

end Direct

/-- With lambdas that answer the same at each call. -/
theorem Plan.steady_direct (hp : host.Pure) {α : Type} (plan : Plan α) :
    (plan.direct host).Steady := by
  induction plan with
  | done | fail | exhausted => exact fun _ _ => rfl
  | await id next ih => exact (Direct.steady_await id).bind ih
  | callInline id next ih =>
    exact Direct.Steady.bind (fun _ _ => congrArg Except.ok (hp.1 id _ _)) ih
  | callBlock id call next ih =>
    exact Direct.Steady.bind (fun _ _ => congrArg Except.ok (hp.2 id _ _ call)) ih
  | compile source tags next ih => exact (Direct.steady_compile source tags).bind ih
  | join count members next ihm ih => exact (Direct.steady_mapM ihm _).bind ih
  | inner plan next ihp ih => exact ihp.bind ih

namespace Engine

variable {engine : Engine}

/-- A render whose values never have to wait comes to the same on a new engine. -/
theorem Still.start_alone (h : engine.Still) (hp : host.Pure)
    (hm : ∀ id, (host.pending id).manual = false) (fuel : Nat) (request : Request) :
    (engine.start host fuel request).statuses =
      engine.statuses ++ ((new engine.config).start host fuel request).statuses := by
  cases fuel with
  | zero =>
    have hstop : ∀ renders : List Rendering, (∀ rendering ∈ renders, rendering.status ≠ .waiting) →
        renders.map (Rendering.status ∘ Rendering.stop) = renders.map Rendering.status := by
      intro renders hover
      refine List.map_congr_left fun rendering hr => ?_
      simp [Rendering.stop, hasNews_of_status (hover rendering hr)]
    simp [Engine.start, proceed, rounds, statuses, new, hstop engine.renders h.ended]
  | succ fuel =>
    rw [(h.start hm fuel request).1, ((still_new engine.config).start hm fuel request).1]
    have hsame := Plan.steady_direct hp (request.plan (fuel + 1) engine.config)
      engine.store.ledger (new engine.config).store.ledger
    rw [Request.direct_plan] at hsame
    rw [hsame]
    rfl

theorem Still.statuses_act (h : engine.Still) (hp : host.Pure)
    (hm : ∀ id, (host.pending id).manual = false) (fuel : Nat) (action : Action) :
    (engine.act host fuel action).statuses = engine.statuses ++
      (action.start? engine.config).toList.flatMap fun start =>
        ((new start.2).start host fuel start.1).statuses := by
  cases action with
  | start request => simpa [Engine.act, Action.start?] using h.start_alone hp hm fuel request
  | release id => simp [Engine.act, Action.start?, h.release_eq, statuses]
  | compile | setTags | setEscape | clearCache =>
    simp [Engine.act, Action.start?, statuses, fetch, setTags, setEscape, clearCache]

/-- Each render of a run in which nobody waits comes to what it comes to on a new engine. -/
theorem Still.statuses_run (h : engine.Still) (hp : host.Pure)
    (hm : ∀ id, (host.pending id).manual = false) (fuel : Nat) (actions : List Action) :
    (engine.run host fuel actions).statuses = engine.statuses ++
      (Action.starts engine.config actions).flatMap fun start =>
        ((new start.2).start host fuel start.1).statuses := by
  induction actions generalizing engine with
  | nil => simp [Action.starts]
  | cons action actions ih =>
    rw [run_cons, ih (h.act hm fuel action), h.statuses_act hp hm, config_act, Action.starts,
      List.flatMap_append, List.append_assoc]

/-- A render that shows a value that is there. -/
def oneShown : Request where
  template := .string "{{x}}".toList
  view := .map [(['x'], .pending 0)]
  partials := .empty
  tags := none
  escape := none

/-- Its section is never closed, under the pair that opens it. -/
def unclosed : Request :=
  { oneShown with template := .string "{{#x}}".toList }

/-- Both under two pairs; under the second the tags are text. -/
def underTwoPairs : List Action :=
  [.start oneShown, .start unclosed, .clearCache, .setTags ⟨['<'], ['>']⟩, .start oneShown,
    .start unclosed]

theorem compiledSince_underTwoPairs : compiledSince oneFails 3 (new default) [] underTwoPairs =
    [("{{x}}".toList, ⟨['<'], ['>']⟩), ("{{#x}}".toList, ⟨['<'], ['>']⟩)] := by
  cbv

end Engine

end Stencil
