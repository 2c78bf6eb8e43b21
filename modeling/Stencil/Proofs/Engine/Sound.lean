import Mathlib.Control.Monad.Basic
import Stencil.Engine.Run
import Stencil.Proofs.Plan.Lawful

/-!
# Sound engines

What holds of an engine between two actions: each render has come as far as the prospects of its plan
allow, or met a fault of it, and one that waits has no part that could go on.
-/

namespace Stencil

deriving instance DecidableEq for Status

theorem Seats.mem_places {seats : Seats} {number : Nat} {place : Place}
    (h : seats.taken[number]? = some place) : place ∈ seats.places := by
  have hv : seats.places = seats.taken.foldr (fun _ place places => place :: places) [] := rfl
  rw [hv, Std.TreeMap.foldr_eq_foldr_toList]
  simpa [← List.map_eq_foldr] using ⟨number, h⟩

section Numbered

universe u v
variable {ρ : Type u} {γ : Type v} {specs : List ρ} {number : Nat} {renders : List γ}

theorem forall₂_zipIdx_imp {R S : ρ × Nat → γ → Prop}
    (h : List.Forall₂ R (specs.zipIdx number) renders)
    (himp : ∀ numbered, number ≤ numbered.2 → ∀ render, R numbered render → S numbered render) :
    List.Forall₂ S (specs.zipIdx number) renders := by
  induction specs generalizing number renders with
  | nil =>
    cases h
    exact .nil
  | cons spec specs ih =>
    cases h with
    | cons hfirst hrest =>
      exact .cons (himp _ (Nat.le_refl _) _ hfirst)
        (ih hrest fun numbered hn => himp numbered (Nat.le_of_succ_le hn))

/-- News goes to one place: the render that it is for hears it, and the others hear nothing. -/
structure Heeds (Told : List Place → ρ × Nat → γ → Prop) (hear : List Nat → γ → γ) : Prop where
  hear : ∀ {told numbered render} path, Told told numbered render →
    Told (told ++ [path.reverse ++ [numbered.2]]) numbered (hear path render)
  other : ∀ {told numbered render place}, Told told numbered render → ¬ [numbered.2] <:+ place →
    Told (told ++ [place]) numbered render

namespace Heeds

variable {Told : List Place → ρ × Nat → γ → Prop} {hear : List Nat → γ → γ} {told : List Place}

theorem modify (h : Heeds Told hear) (hall : List.Forall₂ (Told told) (specs.zipIdx number) renders)
    (index : Nat) (path : List Nat) :
    List.Forall₂ (Told (told ++ [path.reverse ++ [number + index]])) (specs.zipIdx number)
      (renders.modify index (hear path)) := by
  have hends : ∀ n m, [n] <:+ path.reverse ++ [m] → n = m := fun n m hn =>
    eq_of_cons_suffix hn (List.suffix_append ..)
  induction specs generalizing number index renders with
  | nil =>
    cases hall
    simp
  | cons spec specs ih =>
    cases hall with
    | cons hfirst hrest =>
      cases index with
      | zero =>
        refine .cons (h.hear path hfirst) ?_
        refine forall₂_zipIdx_imp hrest fun numbered hn render hr => h.other hr fun hsuffix => ?_
        have he := hends _ _ hsuffix
        omega
      | succ index =>
        refine .cons (h.other hfirst fun hsuffix => ?_) ?_
        · have he := hends _ _ hsuffix
          simp at he
        · have hindex : number + (index + 1) = number + 1 + index := by omega
          rw [hindex]
          exact ih hrest index

theorem tell (h : Heeds Told hear) (hall : List.Forall₂ (Told told) specs.zipIdx renders)
    (place : Place) :
    List.Forall₂ (Told (told ++ [place])) specs.zipIdx
      (match place.reverse with
        | [] => renders
        | number :: path => renders.modify number (hear path)) := by
  cases hr : place.reverse with
  | nil =>
    obtain rfl : place = [] := List.reverse_eq_nil_iff.1 hr
    exact hall.imp fun _ _ ht => h.other ht fun hn => by simpa using hn.length_le
  | cons index path =>
    obtain rfl : place = path.reverse ++ [index] := by
      rw [← List.reverse_reverse place, hr, List.reverse_cons]
    simpa using h.modify hall index path

theorem foldl_tell (h : Heeds Told hear) (told : List Place)
    (hall : List.Forall₂ (Told told) specs.zipIdx renders) (places : List Place) :
    List.Forall₂ (Told (told ++ places)) specs.zipIdx
      (places.foldl (fun renders place =>
        match place.reverse with
        | [] => renders
        | number :: path => renders.modify number (hear path)) renders) := by
  induction places generalizing told renders with
  | nil => simpa using hall
  | cons place places ih => simpa using ih (told ++ [place]) (h.tell hall place)

end Heeds
end Numbered

variable {host : Host}

namespace Store

variable {store : Store}

theorem isReady_release {id other : PendingId} :
    (store.release id).isReady host other = true ↔
      store.isReady host other = true ∨ other = id := by
  simp only [isReady, release, Bool.or_eq_true, decide_eq_true_eq, Std.TreeSet.mem_insert,
    Nat.compare_eq_eq, eq_comm (a := id)]
  tauto

theorem sound_release (h : store.Sound host) (id : PendingId) : (store.release id).Sound host := by
  refine ⟨h.cache, fun other hy => isReady_release.2 (.inl (h.yielded other hy)), fun other hn => ?_⟩
  refine h.seats other (Bool.eq_false_iff.2 fun hr => ?_)
  rw [isReady_release.2 (.inl hr)] at hn
  cases hn

theorem steps_clear {mine : Place → Prop} {begins : PendingId → Prop} (h : store.Sound host) :
    Steps host mine begins store { store with cache := store.cache.clear } :=
  ⟨⟨Cache.sound_clear _, h.yielded, h.seats⟩, rfl, fun _ hb => hb, fun _ => .inl,
    fun _ _ _ _ _ ho => ho⟩

end Store

namespace Process.View

section Told
variable {α : Type} {process : Process α} {view : View process} {place : Place}
  {state : process.State} {store : Store} {id : PendingId} {told : List Place}

/-- The part at the end of a path has been told when it has heard. -/
theorem Heeds.alert_told (heeds : view.Heeds) (path : List Nat)
    (h : view.Alert (fun part id => store.isReady host id = true ∨ part ∈ told) place state) :
    view.Alert (fun part id => store.isReady host id = true ∨ part ∈ told ++ [path.reverse ++ place])
      place (process.hear path state) := by
  refine heeds.alert_mono (fun id n part _ hwanted => ?_) (heeds.alert_hear path h)
  simpa [or_assoc] using hwanted

/-- Who waits here is not told what is told elsewhere. -/
theorem Heeds.alert_other (heeds : view.Heeds) {other : Place} (hother : ¬ place <:+ other)
    (h : view.Alert (fun part id => store.isReady host id = true ∨ part ∈ told) place state) :
    view.Alert (fun part id => store.isReady host id = true ∨ part ∈ told ++ [other]) place state := by
  refine heeds.alert_mono (fun id n part hw hwanted => ?_) h
  have hne : part ≠ other := by
    rintro rfl
    exact hother (heeds.suffix_of_waits hw)
  simpa [hne] using hwanted

theorem not_suffix_other {other : Place} (hnone : ∀ part ∈ told, ¬ place <:+ part)
    (hother : ¬ place <:+ other) : ∀ part ∈ told ++ [other], ¬ place <:+ part := by
  simpa [or_imp, forall_and] using ⟨hnone, hother⟩

theorem Seated.release (h : view.Seated host place state store) (id : PendingId) :
    view.Seated host place state (store.release id) :=
  fun other n part hw => (h other n part hw).imp_left fun hr => Store.isReady_release.2 (.inl hr)

/-- Whoever waits for what becomes ready has been told, if all are who have a seat for it. -/
theorem Seated.ready_or_told (h : view.Seated host place state store)
    (htold : ∀ n part, store.Occupied id n part → part ∈ told) {other : PendingId} {n : Nat}
    {part : Place} (hw : view.Waits place state other n part)
    (hready : (store.release id).isReady host other = true) :
    store.isReady host other = true ∨ part ∈ told := by
  rcases Store.isReady_release.1 hready with hready | rfl
  · exact .inl hready
  · exact (h other n part hw).imp_right (htold n part)

/-- If no part has been told, the value that becomes ready is one that none of them waits for. -/
theorem Asleep.release (heeds : view.Heeds) (h : view.Asleep host place state store)
    (seated : view.Seated host place state store)
    (htold : ∀ n part, store.Occupied id n part → part ∈ told)
    (hnone : ∀ part ∈ told, ¬ place <:+ part) : view.Asleep host place state (store.release id) where
  idle := h.idle
  not_ready other n part hw := by
    refine Bool.eq_false_iff.2 fun hready => ?_
    rcases seated.ready_or_told htold hw hready with hready | hm
    · rw [h.not_ready other n part hw] at hready
      cases hready
    · exact hnone part hm (heeds.suffix_of_waits hw)

end Told

end Process.View

namespace Rendering

theorem hasNews_stop (rendering : Rendering) : rendering.stop.hasNews = false := by
  rw [stop]
  split
  · rfl
  · rename_i hn
    simpa using hn

variable (hp : host.Pure)

/-- How far the render of a plan has come between two advances. -/
inductive Sound (plan : Plan Text) (number : Nat) (store : Store) : Rendering → Prop
  | fresh : Sound plan number store (.underway (plan.process host) none true)
  | waiting {state : (plan.process host).State} {news : Bool}
    (rests : (plan.lawful hp).Rests host [number] state store)
    (asleep : news = false → (plan.lawful hp).Asleep host [number] state store) :
    Sound plan number store (.underway (plan.process host) (some state) news)
  | finished {text : Text} (result : plan.result? host (store.isReady host) = some text)
    (begun : ∀ id, plan.Begins host (store.isReady host) id → id ∈ store.begun) :
    Sound plan number store (.finished (.ok text))
  | failed {error : Error} (faults : plan.Faults host (store.isReady host) error) :
    Sound plan number store (.finished (.error error))
  | exhausted : Sound plan number store .exhausted

variable {hp} {plan : Plan Text} {number : Nat} {store after : Store} {rendering : Rendering}

/-- What other renders do leaves a render as it is. -/
theorem Sound.of_steps {mine : Place → Prop} {begins : PendingId → Prop}
    (h : Sound hp plan number store rendering) (hs : store.Steps host mine begins after)
    (hm : ∀ part, [number] <:+ part → ¬ mine part) : Sound hp plan number after rendering := by
  have hr : ∀ id, store.isReady host id = true → after.isReady host id = true :=
    fun id hi => hs.isReady_eq ▸ hi
  cases h with
  | fresh => exact .fresh
  | waiting rests asleep =>
    exact .waiting ((plan.lawful hp).rests_of_steps rests hs hm) fun hn => (asleep hn).of_steps hs
  | finished result begun =>
    exact .finished (Plan.result?_mono hr result) fun id hi =>
      hs.begun_mono id (begun id (Plan.begins_of_result? hr result hi))
  | failed faults => exact .failed (Plan.Faults.mono hr faults)
  | exhausted => exact .exhausted

theorem Sound.advance (h : Sound hp plan number store rendering) (hs : store.Sound host) :
    store.Steps host ([number] <:+ ·) (fun id => plan.Begins host (store.isReady host) id)
      (rendering.advance number store).2 ∧
    Sound hp plan number (rendering.advance number store).2 (rendering.advance number store).1 := by
  -- every advance of an underway render is one of its process
  have hgo : ∀ state : Option (plan.process host).State,
      (∀ s, state = some s → (plan.lawful hp).Rests host [number] s store) →
      store.Steps host ([number] <:+ ·) (fun id => plan.Begins host (store.isReady host) id)
        ((underway (plan.process host) state true).advance number store).2 ∧
      Sound hp plan number ((underway (plan.process host) state true).advance number store).2
        ((underway (plan.process host) state true).advance number store).1 := by
    intro state hrest
    have hst := (plan.lawful hp).steps hs hrest
    have hr := (plan.lawful hp).reaches hs hrest
    simp only [Rendering.advance]
    generalize (plan.process host).advance [number] state store = advance at hst hr
    obtain ⟨reached, news, after⟩ := advance
    cases reached with
    | ended outcome =>
      refine ⟨hst, ?_⟩
      cases outcome with
      | ok text => exact .finished hr.1 hr.2
      | error error => exact .failed hr
    | exhausted => exact ⟨hst, .exhausted⟩
    | waiting s => exact ⟨hst, .waiting hr.1 hr.2⟩
  cases h with
  | fresh =>
    refine hgo none ?_
    rintro s ⟨⟩
  | @waiting state news rests asleep =>
    cases news with
    | true =>
      refine hgo (some state) ?_
      rintro s ⟨⟩
      exact rests
    | false => exact ⟨.refl hs, .waiting rests asleep⟩
  | finished result begun => exact ⟨.refl hs, .finished result begun⟩
  | failed faults => exact ⟨.refl hs, .failed faults⟩
  | exhausted => exact ⟨.refl hs, .exhausted⟩

/-- While news of a release goes round: whoever may want something ready has been told, and has a
turn to come. -/
inductive Told (hp : host.Pure) (plan : Plan Text) (number : Nat) (store : Store)
    (told : List Place) : Rendering → Prop
  | fresh : Told hp plan number store told (.underway (plan.process host) none true)
  | waiting {state : (plan.process host).State} {news : Bool}
    (stands : (plan.lawful hp).Stands state store)
    (seated : (plan.lawful hp).Seated host [number] state store)
    (alert : (plan.lawful hp).Alert (fun part id => store.isReady host id = true ∨ part ∈ told)
      [number] state)
    (asleep : news = false → (plan.lawful hp).Asleep host [number] state store ∧
      ∀ part ∈ told, ¬ [number] <:+ part) :
    Told hp plan number store told (.underway (plan.process host) (some state) news)
  | finished {text : Text} (result : plan.result? host (store.isReady host) = some text)
    (begun : ∀ id, plan.Begins host (store.isReady host) id → id ∈ store.begun) :
    Told hp plan number store told (.finished (.ok text))
  | failed {error : Error} (faults : plan.Faults host (store.isReady host) error) :
    Told hp plan number store told (.finished (.error error))
  | exhausted : Told hp plan number store told .exhausted

variable {told : List Place} {place : Place}

theorem Sound.told_nil (h : Sound hp plan number store rendering) :
    Told hp plan number store [] rendering := by
  cases h with
  | fresh => exact .fresh
  | waiting rests asleep =>
    refine .waiting rests.stands rests.seated ?_ fun hn => ⟨asleep hn, by simp⟩
    exact (plan.lawful hp).alert_mono (fun _ _ _ _ h => h.resolve_right (by simp)) rests.alert
  | finished result begun => exact .finished result begun
  | failed faults => exact .failed faults
  | exhausted => exact .exhausted

/-- The render that the news is for hears it. -/
theorem Told.hear (h : Told hp plan number store told rendering) (path : List Nat) :
    Told hp plan number store (told ++ [path.reverse ++ [number]]) (rendering.hear path) := by
  cases h with
  | fresh => exact .fresh
  | waiting stands seated alert asleep =>
    exact .waiting ((plan.lawful hp).stands_hear path stands)
      (fun id n part hw => seated id n part ((plan.lawful hp).waits_of_hear hw))
      ((plan.lawful hp).heeds.alert_told path alert) nofun
  | finished result begun => exact .finished result begun
  | failed faults => exact .failed faults
  | exhausted => exact .exhausted

/-- The others hear nothing. -/
theorem Told.other (h : Told hp plan number store told rendering)
    (hother : ¬ [number] <:+ place) : Told hp plan number store (told ++ [place]) rendering := by
  cases h with
  | fresh => exact .fresh
  | waiting stands seated alert asleep =>
    exact .waiting stands seated ((plan.lawful hp).heeds.alert_other hother alert) fun hn =>
      ⟨(asleep hn).1, Process.View.not_suffix_other (asleep hn).2 hother⟩
  | finished result begun => exact .finished result begun
  | failed faults => exact .failed faults
  | exhausted => exact .exhausted

/-- When all who wait for a value have been told, it may become ready. -/
theorem Told.release {id : PendingId} (h : Told hp plan number store told rendering)
    (htold : ∀ n part, store.Occupied id n part → part ∈ told) :
    Sound hp plan number (store.release id) rendering := by
  have hr : ∀ other, store.isReady host other = true →
      (store.release id).isReady host other = true := fun other h => Store.isReady_release.2 (.inl h)
  cases h with
  | fresh => exact .fresh
  | @waiting state news stands seated alert asleep =>
    exact .waiting ⟨(plan.lawful hp).stands_mono hr (fun _ hb => hb) stands, seated.release id,
      (plan.lawful hp).alert_mono (fun _ _ _ => seated.ready_or_told htold) alert⟩
      fun hn => (asleep hn).1.release (plan.lawful hp).heeds seated htold (asleep hn).2
  | finished result begun =>
    exact .finished (Plan.result?_mono hr result) fun other hi =>
      begun other (Plan.begins_of_result? hr result hi)
  | failed faults => exact .failed (Plan.Faults.mono hr faults)
  | exhausted => exact .exhausted

end Rendering

namespace Engine

variable {hp : host.Pure} {plans : List (Plan Text)} {number : Nat} {renders : List Rendering}
  {store : Store}

/-- Renders of these plans, from a number on. -/
abbrev AllSound (hp : host.Pure) (plans : List (Plan Text)) (number : Nat) (store : Store)
    (renders : List Rendering) : Prop :=
  List.Forall₂ (fun numbered rendering => rendering.Sound hp numbered.1 numbered.2 store)
    (plans.zipIdx number) renders

theorem AllSound.of_steps {mine : Place → Prop} {begins : PendingId → Prop} {after : Store}
    (h : AllSound hp plans number store renders) (hs : store.Steps host mine begins after)
    (hm : ∀ n, number ≤ n → ∀ part, [n] <:+ part → ¬ mine part) :
    AllSound hp plans number after renders :=
  forall₂_zipIdx_imp h fun numbered hn _ hr => hr.of_steps hs (hm numbered.2 hn)

theorem round_sound (hs : store.Sound host) (h : AllSound hp plans number store renders) :
    store.Steps host (fun part => ∃ n, number ≤ n ∧ [n] <:+ part)
      (fun id => ∃ plan ∈ plans, plan.Begins host (store.isReady host) id)
      (round number renders store).2 ∧
    AllSound hp plans number (round number renders store).2 (round number renders store).1 := by
  induction plans generalizing number renders store with
  | nil =>
    cases h
    exact ⟨.refl hs, .nil⟩
  | cons plan plans ih =>
    cases h with
    | @cons _ rendering _ renders hfirst hrest =>
      obtain ⟨hst, hadvanced⟩ := hfirst.advance hs
      have hrest' : AllSound hp plans (number + 1) (rendering.advance number store).2 renders := by
        refine AllSound.of_steps hrest hst fun n hn part hp hp' => ?_
        have he : n = number := eq_of_cons_suffix hp hp'
        omega
      obtain ⟨hgo, hall⟩ := ih hst.sound hrest'
      refine ⟨(hst.mono ?_ ?_).trans (hgo.mono ?_ ?_), .cons (hadvanced.of_steps hgo ?_) hall⟩
      · exact fun part hp => ⟨number, Nat.le_refl _, hp⟩
      · exact fun id hb => ⟨plan, List.mem_cons_self .., hb⟩
      · exact fun part ⟨n, hn, hp⟩ => ⟨n, by omega, hp⟩
      · rintro id ⟨other, ho, hb⟩
        exact ⟨other, List.mem_cons_of_mem _ ho, hst.isReady_eq ▸ hb⟩
      · rintro part hp ⟨n, hn, hp'⟩
        have he : n = number := eq_of_cons_suffix hp' hp
        omega

theorem rounds_sound (fuel : Nat) (hs : store.Sound host) (h : AllSound hp plans 0 store renders) :
    store.Steps host (fun _ => True) (fun id => ∃ plan ∈ plans, plan.Begins host (store.isReady host) id)
      (rounds fuel renders store).2 ∧
    AllSound hp plans 0 (rounds fuel renders store).2 (rounds fuel renders store).1 ∧
    ∀ rendering ∈ (rounds fuel renders store).1, rendering.hasNews = false := by
  induction fuel generalizing renders store with
  | zero =>
    refine ⟨.refl hs, ?_, fun rendering hr => ?_⟩
    · refine List.forall₂_map_right_iff.2 (h.imp fun _ rendering hr => ?_)
      rw [Rendering.stop]
      split
      · exact .exhausted
      · exact hr
    · obtain ⟨earlier, -, rfl⟩ := List.mem_map.1 hr
      exact earlier.hasNews_stop
  | succ fuel ih =>
    by_cases hn : renders.any Rendering.hasNews = true
    · simp only [rounds, hn, if_true]
      obtain ⟨hst, hall⟩ := round_sound hs h
      obtain ⟨hgo, hsound, hquiet⟩ := ih hst.sound hall
      refine ⟨(hst.mono (fun _ _ => trivial) fun _ hb => hb).trans (hgo.mono (fun _ _ => trivial) ?_),
        hsound, hquiet⟩
      rintro id ⟨plan, hm, hb⟩
      exact ⟨plan, hm, hst.isReady_eq ▸ hb⟩
    · simp only [rounds, hn]
      exact ⟨.refl hs, h, fun rendering hr => by
        simpa using mt (fun hnews => List.any_eq_true.2 ⟨rendering, hr, hnews⟩) hn⟩

theorem heeds_told (hp : host.Pure) (store : Store) :
    Heeds (fun told (numbered : Plan Text × Nat) rendering =>
      rendering.Told hp numbered.1 numbered.2 store told) Rendering.hear :=
  ⟨fun path ht => ht.hear path, fun ht hother => ht.other hother⟩

/-- What holds of an engine between two actions, when it has started renders of these plans. -/
structure Sound (hp : host.Pure) (plans : List (Plan Text)) (engine : Engine) : Prop where
  store : engine.store.Sound host
  renders : AllSound hp plans 0 engine.store engine.renders
  quiet : ∀ rendering ∈ engine.renders, rendering.hasNews = false
  begun_of : ∀ id ∈ engine.store.begun,
    ∃ plan ∈ plans, plan.Begins host (engine.store.isReady host) id

theorem sound_new (hp : host.Pure) (config : Config) : (new config).Sound hp [] :=
  ⟨Store.sound_empty, .nil, by simp [new], by simp [new, Store.empty]⟩

variable {engine : Engine} {fuel : Nat}

theorem isReady_proceed (hs : engine.store.Sound host)
    (h : AllSound hp plans 0 engine.store engine.renders) :
    (engine.proceed fuel).store.isReady host = engine.store.isReady host :=
  (rounds_sound fuel hs h).1.isReady_eq

theorem sound_proceed (hs : engine.store.Sound host)
    (h : AllSound hp plans 0 engine.store engine.renders)
    (hb : ∀ id ∈ engine.store.begun,
      ∃ plan ∈ plans, plan.Begins host (engine.store.isReady host) id) :
    (engine.proceed fuel).Sound hp plans := by
  obtain ⟨hst, hall, hquiet⟩ := rounds_sound fuel hs h
  refine ⟨hst.sound, hall, hquiet, fun id hi => ?_⟩
  obtain ⟨plan, hm, hbegins⟩ := (hst.begun_of id hi).elim (hb id) fun h => h
  have hr : (engine.proceed fuel).store.isReady host = engine.store.isReady host := hst.isReady_eq
  exact ⟨plan, hm, hr ▸ hbegins⟩

theorem Sound.started (h : engine.Sound hp plans) (plan : Plan Text) :
    AllSound hp (plans ++ [plan]) 0 engine.store
      (engine.renders ++ [.underway (plan.process host) none true]) := by
  rw [AllSound, List.zipIdx_append]
  exact List.rel_append h.renders (.cons .fresh .nil)

theorem Sound.start (h : engine.Sound hp plans) (fuel : Nat) (request : Request) :
    (engine.start host fuel request).Sound hp (plans ++ [request.plan fuel engine.config]) ∧
    (engine.start host fuel request).store.isReady host = engine.store.isReady host := by
  have hall := h.started (request.plan fuel engine.config)
  refine ⟨sound_proceed h.store hall fun id hi => ?_, isReady_proceed h.store hall⟩
  obtain ⟨plan, hm, hb⟩ := h.begun_of id hi
  exact ⟨plan, List.mem_append_left _ hm, hb⟩

/-- All who wait for a value have been told of its release. -/
theorem Sound.released (h : engine.Sound hp plans) (id : PendingId) :
    AllSound hp plans 0 (engine.store.release id)
      ((engine.store.seatsOf id).places.foldl (fun renders place => tell place renders)
        engine.renders) := by
  have htold := (heeds_told hp engine.store).foldl_tell []
    (h.renders.imp fun _ _ hr => hr.told_nil) (engine.store.seatsOf id).places
  exact htold.imp fun _ _ hr => hr.release fun n part ho => by simpa using Seats.mem_places ho

theorem Sound.release (h : engine.Sound hp plans) (fuel : Nat) (id : PendingId) :
    (engine.release fuel id).Sound hp plans ∧
    ∀ other, (engine.release fuel id).store.isReady host other = true ↔
      engine.store.isReady host other = true ∨ other = id := by
  have hall := h.released id
  have hs := Store.sound_release h.store id
  refine ⟨sound_proceed hs hall fun other hi => ?_, fun other => ?_⟩
  · obtain ⟨plan, hm, hb⟩ := h.begun_of other hi
    exact ⟨plan, hm, hb.mono fun other hr => Store.isReady_release.2 (.inl hr)⟩
  · have hr : (engine.release fuel id).store.isReady host =
        (engine.store.release id).isReady host := isReady_proceed hs hall
    rw [hr]
    exact Store.isReady_release

/-- What leaves the renders alone. -/
theorem Sound.of_steps (h : engine.Sound hp plans) {store : Store} (config : Config)
    (hs : engine.store.Steps host (fun _ => False) (fun _ => False) store) :
    Engine.Sound hp plans { engine with config, store } where
  store := hs.sound
  renders := AllSound.of_steps h.renders hs fun _ _ _ _ => id
  quiet := h.quiet
  begun_of id hi := by
    obtain ⟨plan, hm, hb⟩ := h.begun_of id ((hs.begun_of id hi).resolve_right fun h => h)
    exact ⟨plan, hm, hs.isReady_eq ▸ hb⟩

end Engine

namespace Action

/-- The defaults after an action. -/
def config (config : Config) : Action → Config
  | .setTags tags => { config with tags }
  | .setEscape escape => { config with escape }
  | _ => config

/-- The render that an action starts, with the defaults in force. -/
def start? (config : Config) : Action → Option (Request × Config)
  | .start request => some (request, config)
  | _ => none

/-- The renders that actions start, each with the defaults in force at its start. -/
def starts : Config → List Action → List (Request × Config)
  | _, [] => []
  | config, action :: actions =>
    (action.start? config).toList ++ starts (action.config config) actions

/-- The values that can yield their results after these actions. -/
def ready (host : Host) (actions : List Action) (id : PendingId) : Bool :=
  !(host.pending id).manual || actions.any fun
    | .release other => other == id
    | _ => false

theorem starts_append (config : Config) (front back : List Action) :
    starts config (front ++ back) = starts config front ++ starts (front.foldl Action.config config) back := by
  induction front generalizing config with
  | nil => rfl
  | cons action front ih => simp [starts, ih]

theorem ready_iff {actions : List Action} {id : PendingId} :
    ready host actions id = true ↔
      (host.pending id).manual = false ∨ .release id ∈ actions := by
  have hany : (actions.any fun
      | .release other => other == id
      | _ => false) = true ↔ .release id ∈ actions := by
    rw [List.any_eq_true]
    constructor
    · rintro ⟨action, hm, ha⟩
      cases action with
      | release other => exact (by simpa using ha : other = id) ▸ hm
      | _ => simp at ha
    · exact fun hm => ⟨_, hm, by simp⟩
  simp [ready, hany]

end Action

namespace Engine

variable {hp : host.Pure} {engine : Engine}

/-- The plans of renders that have been started. -/
def plans (fuel : Nat) (starts : List (Request × Config)) : List (Plan Text) :=
  starts.map fun start => start.1.plan fuel start.2

theorem config_act (engine : Engine) (fuel : Nat) (action : Action) :
    (engine.act host fuel action).config = action.config engine.config := by
  cases action <;> rfl

theorem Sound.act {plans : List (Plan Text)} (h : engine.Sound hp plans) (fuel : Nat)
    (action : Action) :
    (engine.act host fuel action).Sound hp
      (plans ++ Engine.plans fuel (action.start? engine.config).toList) ∧
    (engine.act host fuel action).config = action.config engine.config ∧
    ∀ id, (engine.act host fuel action).store.isReady host id = true ↔
      engine.store.isReady host id = true ∨ action = .release id := by
  have hsame : plans ++ Engine.plans fuel [] = plans := by simp [Engine.plans]
  cases action with
  | start request =>
    obtain ⟨hsound, hr⟩ := h.start fuel request
    exact ⟨hsound, rfl, fun id => by simp [Engine.act, hr]⟩
  | release id =>
    obtain ⟨hsound, hr⟩ := h.release fuel id
    refine ⟨hsame.symm ▸ hsound, rfl, fun other => (hr other).trans (or_congr_right ?_)⟩
    rw [Action.release.injEq]
    exact eq_comm
  | compile source tags =>
    refine ⟨hsame.symm ▸ h.of_steps _ (Store.steps_fetch h.store _ _), rfl, fun id => ?_⟩
    simp only [reduceCtorEq, or_false]
    rfl
  | setTags tags =>
    exact ⟨hsame.symm ▸ h.of_steps _ (.refl h.store), rfl, fun id => by simp [Engine.act, setTags]⟩
  | setEscape escape =>
    exact ⟨hsame.symm ▸ h.of_steps _ (.refl h.store), rfl, fun id => by simp [Engine.act, setEscape]⟩
  | clearCache =>
    refine ⟨hsame.symm ▸ h.of_steps _ (Store.steps_clear h.store), rfl, fun id => ?_⟩
    simp only [reduceCtorEq, or_false]
    rfl

theorem Sound.run {plans : List (Plan Text)} (h : engine.Sound hp plans) (fuel : Nat)
    (actions : List Action) :
    (engine.run host fuel actions).Sound hp
      (plans ++ Engine.plans fuel (Action.starts engine.config actions)) ∧
    ∀ id, (engine.run host fuel actions).store.isReady host id = true ↔
      engine.store.isReady host id = true ∨ .release id ∈ actions := by
  induction actions generalizing engine plans with
  | nil => exact ⟨by simpa [Engine.plans, Action.starts] using h, by simp⟩
  | cons action actions ih =>
    obtain ⟨hact, hconfig, hr⟩ := h.act fuel action
    obtain ⟨hrun, hready⟩ := ih hact
    refine ⟨?_, fun id => ?_⟩
    · simpa [Engine.plans, Action.starts, hconfig] using hrun
    · rw [run_cons, hready, hr, List.mem_cons, or_assoc, eq_comm (a := action)]

/-- The state of a new engine after a run. -/
theorem sound_run_new (hp : host.Pure) (fuel : Nat) (config : Config) (actions : List Action) :
    ((new config).run host fuel actions).Sound hp (plans fuel (Action.starts config actions)) ∧
    ((new config).run host fuel actions).store.isReady host = Action.ready host actions := by
  obtain ⟨hsound, hr⟩ := (sound_new hp config).run fuel actions
  refine ⟨hsound, ?_⟩
  funext id
  rw [Bool.eq_iff_iff, hr, Action.ready_iff]
  simp [Store.isReady, new, Store.empty]

end Engine

end Stencil
