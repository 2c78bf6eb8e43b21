import Mathlib
import Stencil.Engine.Run
import Stencil.Proofs.Direct.Bound

/-!
# Renders that never wait

When no pending value is manual, a render is over as soon as it has been started, with the outcome of
the plain evaluator, and leaves behind what the evaluator notes in its ledger.
-/

namespace Stencil

variable {host : Host}

/-- The past that a store shows. -/
def Store.ledger (store : Store) : Ledger where
  calls := store.calls.reverse
  begun := store.begun.toList
  compiled := store.cache.entries.map fun entry => (entry.source, entry.tags)

theorem Store.Shows.self {store : Store} {ledger : Ledger} (h : store.Shows ledger) :
    store.Shows store.ledger where
  calls := rfl
  begun id := by simp [Store.ledger]
  compiled source tags := by simp [Store.ledger, Cache.Has]
  cache := h.cache
  counts lambda := by rw [h.counts, ← h.calls]; rfl

theorem Store.shows_empty : Store.empty.Shows ⟨[], [], []⟩ where
  calls := rfl
  begun id := by simp [Store.empty]
  compiled source tags := by simp [Store.empty, Cache.empty, Cache.Has]
  cache := Cache.sound_empty
  counts lambda := rfl

/-- The status of a render that is over. -/
def Status.ofOutcome : Except Stop Text → Status
  | .ok text => .finished (.ok text)
  | .error (.failed error) => .finished (.error error)
  | .error .exhausted => .exhausted

namespace Rendering

/-- A render that is over. -/
def ofOutcome : Except Stop Text → Rendering
  | .ok text => .finished (.ok text)
  | .error (.failed error) => .finished (.error error)
  | .error .exhausted => .exhausted

theorem status_ofOutcome (outcome : Except Stop Text) :
    (ofOutcome outcome).status = .ofOutcome outcome := by
  rcases outcome with (_ | _) | _ <;> rfl

theorem status_ofOutcome_ne (outcome : Except Stop Text) :
    (ofOutcome outcome).status ≠ .waiting := by
  rcases outcome with (_ | _) | _ <;> exact nofun

end Rendering

namespace Engine

/-- What holds between two actions when nobody ever waits: every render is over, and the store shows
its past. -/
structure Still (engine : Engine) : Prop where
  ended : ∀ rendering ∈ engine.renders, rendering.status ≠ .waiting
  shows : engine.store.Shows engine.store.ledger

theorem still_new (config : Config) : (new config).Still :=
  ⟨by simp [new], Store.shows_empty.self⟩

theorem hasNews_of_status {rendering : Rendering} (h : rendering.status ≠ .waiting) :
    rendering.hasNews = false := by
  cases rendering with
  | underway => exact absurd rfl h
  | finished | exhausted => rfl

/-- Only the last render goes on. -/
theorem round_append {renders : List Rendering} (h : ∀ rendering ∈ renders, rendering.status ≠ .waiting)
    (number : Nat) (last : Rendering) (store : Store) :
    round number (renders ++ [last]) store =
      (renders ++ [(last.advance (number + renders.length) store).1],
        (last.advance (number + renders.length) store).2) := by
  induction renders generalizing number with
  | nil => rfl
  | cons rendering renders ih =>
    rw [List.forall_mem_cons] at h
    simp only [List.cons_append, round,
      Rendering.advance_of_not_hasNews (hasNews_of_status h.1), ih h.2, List.length_cons]
    rw [Nat.add_assoc, Nat.add_comm 1]

theorem rounds_of_quiet {renders : List Rendering}
    (h : ∀ rendering ∈ renders, rendering.hasNews = false) (fuel : Nat) (store : Store) :
    rounds fuel renders store = (renders, store) := by
  cases fuel with
  | zero =>
    have hstop : renders.map Rendering.stop = renders.map id :=
      List.map_congr_left fun rendering hr => by simp [Rendering.stop, h rendering hr]
    rw [rounds, hstop, List.map_id]
  | succ fuel =>
    have hany : renders.any Rendering.hasNews = false := by simpa using h
    simp [rounds, hany]

theorem rounds_of_over {renders : List Rendering}
    (h : ∀ rendering ∈ renders, rendering.status ≠ .waiting) (fuel : Nat) (store : Store) :
    rounds fuel renders store = (renders, store) :=
  rounds_of_quiet (fun rendering hr => hasNews_of_status (h rendering hr)) fuel store

/-- One advance is enough when it is the last. -/
theorem rounds_append {renders : List Rendering}
    (h : ∀ rendering ∈ renders, rendering.status ≠ .waiting) {last : Rendering} {store : Store}
    (hn : last.hasNews = true) (hover : (last.advance renders.length store).1.status ≠ .waiting)
    (fuel : Nat) :
    rounds (fuel + 1) (renders ++ [last]) store =
      (renders ++ [(last.advance renders.length store).1],
        (last.advance renders.length store).2) := by
  have hany : (renders ++ [last]).any Rendering.hasNews = true := by simp [hn]
  simp only [rounds, hany, if_true, round_append h, Nat.zero_add]
  refine rounds_of_over (fun rendering hr => ?_) fuel _
  rcases List.mem_append.1 hr with hr | hr
  · exact h rendering hr
  · rwa [List.mem_singleton.1 hr]

theorem tell_of_over {renders : List Rendering}
    (h : ∀ rendering ∈ renders, rendering.status ≠ .waiting) (place : Place) :
    tell place renders = renders := by
  rw [tell]
  split
  · rfl
  · rename_i number path _
    refine List.ext_getElem (by simp) fun n hn hn' => ?_
    rw [List.getElem_modify]
    split
    · have ho := h renders[n] (List.getElem_mem hn')
      cases hr : renders[n] with
      | underway => exact absurd (hr ▸ rfl) ho
      | finished | exhausted => rfl
    · rfl

variable {engine : Engine}

/-- A render that never waits is over after its first advance. -/
theorem advance_follows (hm : ∀ id, (host.pending id).manual = false) (plan : Plan Text)
    (number : Nat) {store : Store} {ledger : Ledger} (hs : store.Shows ledger) :
    let advanced := (Rendering.underway (plan.process host) none true).advance number store
    let came := (plan.direct host).outcome ledger
    advanced.1 = .ofOutcome came.1 ∧ advanced.2.Shows came.2 := by
  obtain ⟨hreached, hafter⟩ := plan.follows hm [number] hs
  simp only [Rendering.advance]
  generalize (plan.process host).advance [number] none store = advance at hreached hafter
  generalize (plan.direct host).outcome ledger = came at hreached hafter
  obtain ⟨reached, news, after⟩ := advance
  obtain ⟨outcome, later⟩ := came
  obtain rfl : reached = .ofOutcome outcome := hreached
  rcases outcome with (error | _) | text <;> exact ⟨rfl, hafter⟩

/-- A render that never waits is over when it has been started. -/
theorem Still.start (h : engine.Still) (hm : ∀ id, (host.pending id).manual = false) (fuel : Nat)
    (request : Request) :
    let after := engine.start host (fuel + 1) request
    let came := (Direct.render host (fuel + 1) request engine.config).outcome engine.store.ledger
    after.statuses = engine.statuses ++ [.ofOutcome came.1] ∧ after.store.Shows came.2 ∧
      after.Still := by
  intro after came
  obtain ⟨hlast, hshows⟩ := advance_follows hm (request.plan (fuel + 1) engine.config)
    engine.renders.length h.shows
  rw [Request.direct_plan] at hlast hshows
  have hover := Rendering.status_ofOutcome_ne came.1
  have hafter : after = { engine with
      renders := engine.renders ++ [.ofOutcome came.1]
      store := ((Rendering.underway ((request.plan (fuel + 1) engine.config).process host) none
        true).advance engine.renders.length engine.store).2 } := by
    simp only [after, Engine.start, proceed]
    rw [rounds_append h.ended rfl (hlast ▸ hover), hlast]
  rw [hafter]
  refine ⟨?_, hshows, fun rendering hr => ?_, hshows.self⟩
  · simp [statuses, Rendering.status_ofOutcome]
  · rcases List.mem_append.1 hr with hr | hr
    · exact h.ended rendering hr
    · rwa [List.mem_singleton.1 hr]

/-- Without a single round a render is left where it started. -/
theorem Still.start_zero (h : engine.Still) (request : Request) :
    (engine.start host 0 request).Still := by
  refine ⟨fun rendering hr => ?_, h.shows⟩
  obtain ⟨earlier, he, rfl⟩ := List.mem_map.1 hr
  rcases List.mem_append.1 he with he | he
  · have hn := hasNews_of_status (h.ended earlier he)
    simpa [Rendering.stop, hn] using h.ended earlier he
  · rw [List.mem_singleton.1 he]
    exact nofun

/-- When every render is over, a release is news to nobody. -/
theorem release_of_over (h : ∀ rendering ∈ engine.renders, rendering.status ≠ .waiting) (fuel : Nat)
    (id : PendingId) :
    engine.release fuel id = { engine with store := engine.store.release id } := by
  have htell : ∀ places : List Place,
      places.foldl (fun renders place => tell place renders) engine.renders = engine.renders := by
    intro places
    induction places with
    | nil => rfl
    | cons place places ih => rw [List.foldl_cons, tell_of_over h, ih]
  simp only [Engine.release, proceed, htell, rounds_of_over h]

theorem Still.release_eq (h : engine.Still) (fuel : Nat) (id : PendingId) :
    engine.release fuel id = { engine with store := engine.store.release id } :=
  release_of_over h.ended fuel id

theorem Still.release (h : engine.Still) (fuel : Nat) (id : PendingId) :
    (engine.release fuel id).Still := by
  rw [h.release_eq]
  exact ⟨h.ended, { h.shows with }⟩

theorem Still.act (h : engine.Still) (hm : ∀ id, (host.pending id).manual = false) (fuel : Nat)
    (action : Action) : (engine.act host fuel action).Still := by
  cases action with
  | start request =>
    cases fuel with
    | zero => exact h.start_zero request
    | succ fuel => exact (h.start hm fuel request).2.2
  | release id => exact h.release fuel id
  | compile source tags =>
    refine ⟨h.ended, ?_⟩
    cases hc : Template.compile source (tags.getD engine.config.tags) with
    | ok nodes => exact (h.shows.fetch_of_ok hc).self
    | error error => exact (h.shows.fetch_of_error hc).self
  | setTags tags => exact ⟨h.ended, h.shows⟩
  | setEscape escape => exact ⟨h.ended, h.shows⟩
  | clearCache =>
    exact ⟨h.ended, ⟨rfl, h.shows.begun, fun _ _ => by simp [Store.ledger, Cache.Has],
      Cache.sound_clear _, h.shows.counts⟩⟩

theorem Still.run (h : engine.Still) (hm : ∀ id, (host.pending id).manual = false) (fuel : Nat)
    (actions : List Action) : (engine.run host fuel actions).Still := by
  induction actions generalizing engine with
  | nil => exact h
  | cons action actions ih => exact ih (h.act hm fuel action)

/-- On an engine with any past, when no value is manual: if the evaluation in order of what a render
is asked for ends within a bound, then under every bound from there on the render is over in its first
step, with the same text or the same error. The calls in their order, the values begun and the keys
of the cache are those of the evaluation, whatever joins the render has made. -/
theorem start_sequential (hm : ∀ id, (host.pending id).manual = false) (config : Config)
    (earlier : Nat) (actions : List Action) (request : Request) (bound : Nat) :
    let engine := (new config).run host earlier actions
    let came := (Direct.render host bound request engine.config).outcome engine.store.ledger
    came.1 ≠ .error .exhausted → ∀ fuel, bound ≤ fuel → 0 < fuel →
      let after := engine.start host fuel request
      after.statuses = engine.statuses ++ [.ofOutcome came.1] ∧
        after.store.calls.reverse = came.2.calls ∧
        (∀ id, id ∈ after.store.begun ↔ id ∈ came.2.begun) ∧
        ∀ source tags, after.store.cache.Has source tags ↔ (source, tags) ∈ came.2.compiled := by
  intro engine came hcame fuel hle hpos after
  have hstill : engine.Still := (still_new config).run hm earlier actions
  obtain ⟨fuel, rfl⟩ : ∃ n, fuel = n + 1 := ⟨fuel - 1, by omega⟩
  obtain ⟨hstatuses, hshows, -⟩ := hstill.start hm fuel request
  have hsame := Direct.below_render hle request engine.config engine.store.ledger hcame
  rw [hsame] at hstatuses hshows
  exact ⟨hstatuses, hshows.calls, hshows.begun, hshows.compiled⟩

/-- A value that is there and one whose producer fails. -/
def oneFails : Host where
  pending
    | 0 => ⟨.ok (.string ['a']), false⟩
    | _ => ⟨.error (.valueFailed ['b']), false⟩
  inline _ _ := .null
  block _ _ _ := .value .null

/-- A render that shows both and a third, which it does not come to. -/
def threeShown : Request where
  template := .string "{{x}}{{y}}{{z}}".toList
  view := .map [(['x'], .pending 0), (['y'], .pending 1), (['z'], .pending 2)]
  partials := .empty
  tags := none
  escape := none

theorem render_threeShown :
    (Direct.render oneFails 1 threeShown default).outcome ⟨[], [], []⟩ =
      (.error (.failed (.valueFailed ['b'])),
        ⟨[], [0, 1], [("{{x}}{{y}}{{z}}".toList, default)]⟩) := by
  cbv

/-- The first failure met ends the render, and nothing after it is begun. -/
theorem start_sequential_threeShown :
    let after := (new default).start oneFails 4 threeShown
    after.statuses = [.finished (.error (.valueFailed ['b']))] ∧ after.store.calls.reverse = [] ∧
      ∀ id, id ∈ after.store.begun ↔ id ∈ [0, 1] := by
  have hm : ∀ id, (oneFails.pending id).manual = false := by
    intro id
    cases id <;> rfl
  have hcame : (Direct.render oneFails 1 threeShown
      ((new default).run oneFails 0 []).config).outcome
      ((new default).run oneFails 0 []).store.ledger = _ := render_threeShown
  have hafter := start_sequential hm default 0 [] threeShown 1
  simp only [hcame] at hafter
  obtain ⟨hstatuses, hcalls, hbegun, -⟩ := hafter nofun 4 (by decide) (by decide)
  exact ⟨hstatuses, hcalls, hbegun⟩

end Engine
end Stencil
