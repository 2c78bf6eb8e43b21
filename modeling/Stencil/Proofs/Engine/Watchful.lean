import Stencil.Proofs.Engine.Chronicle
import Stencil.Proofs.Engine.Sound

/-!
# Watchful runs

What holds of a chronicle between two actions, whatever the lambdas answer: whatever a render has
come for has come, or the render still waits for it, or a join of it holds the failure back. A
render that has no news waits for nothing that is ready, and one that is over does nothing more.
-/

namespace Stencil

variable {host : Host}

namespace Process.Watch

variable {α : Type} {process : Process α} {watch : Watch process} {place : Place}
  {state : Option process.State} {told : Journal} {s : process.State}

theorem Keeps.mono {before after : Store} (h : watch.Keeps host place state told before s)
    (hy : ∀ id ∈ before.yielded, id ∈ after.yielded) : watch.Keeps host place state told after s :=
  { h with wanted := fun part id hw => (h.wanted part id hw).imp_left (·.mono hy) }

end Process.Watch

theorem Process.Watchful.keeps_hear {α : Type} {plan : Plan α} {process : Process α}
    {account : Account process} (law : Watchful host plan account) {place : Place}
    {state : Option process.State} {told : Journal} {store : Store} {s : process.State}
    (h : law.Keeps host place state told store s) (path : List Nat) :
    law.Keeps host place state told store (process.hear path s) where
  wanted part id hw := by
    refine (h.wanted part id hw).imp_right (Or.imp ?_ ?_)
    · rintro ⟨number, hw⟩
      exact ⟨number, law.waits_hear.2 hw⟩
    · rintro ⟨join, size, member, hh, hp⟩
      exact ⟨join, size, member, law.holds_hear.2 hh, hp⟩
  waits id number part hw := h.waits id number part (law.waits_hear.1 hw)
  holds join size member hh := h.holds join size member (law.holds_hear.1 hh)

theorem Store.acts_clear {mine : Place → Prop} {asks : PendingId → Prop} {store : Store}
    (h : store.Sound host) :
    store.Acts host mine asks { store with cache := store.cache.clear } [] where
  toSteps := steps_clear h
  toTells := Journal.tells_of_quiet rfl rfl nofun rfl rfl nofun
  within := nofun
  asked := nofun

namespace Watched

/-- How far the render of a plan has come, by the journal of the run. While news of a release goes
round, those who have been told have a turn to come. -/
inductive Kept (plan : Plan Text) (number : Nat) (store : Store) (journal : Journal)
    (told : List Place) : Watched host → Prop
  | fresh (quiet : journal.under [number] = []) :
    Kept plan number store journal told (.underway plan none true)
  | waiting {state : (plan.process host).State} {news : Bool}
    (stands : (plan.watchful host).Stands state store)
    (seated : (plan.watchful host).Seated host [number] state store)
    (alert : (plan.watchful host).Alert (fun part id => store.isReady host id = true ∨ part ∈ told)
      [number] state)
    (asleep : news = false → (plan.watchful host).Asleep host [number] state store ∧
      ∀ part ∈ told, ¬ [number] <:+ part)
    (keeps : (plan.watchful host).Keeps host [number] none (journal.under [number]) store state) :
    Kept plan number store journal told (.underway plan (some state) news)
  | finished {text : Text}
    (came : ∀ part id, (part, .asks id) ∈ journal.under [number] → store.Came host id) :
    Kept plan number store journal told (.finished (.ok text))
  | failed {error : Error} : Kept plan number store journal told (.finished (.error error))
  | exhausted : Kept plan number store journal told .exhausted

variable {plan : Plan Text} {number : Nat} {store after : Store} {journal more : Journal}
  {told : List Place} {watched : Watched host}

/-- What others do leaves a render as it is. -/
theorem Kept.of_acts {mine : Place → Prop} {asks : PendingId → Prop}
    (h : Kept plan number store journal [] watched) (ha : store.Acts host mine asks after more)
    (hm : ∀ part, [number] <:+ part → ¬ mine part) :
    Kept plan number after (journal ++ more) [] watched := by
  have hunder : (journal ++ more).under [number] = journal.under [number] := by
    rw [Journal.under_append, Journal.under_eq_nil fun part deed hd hp => hm part hp
      (ha.within part deed hd), List.append_nil]
  cases h with
  | fresh quiet => exact .fresh (hunder.trans quiet)
  | waiting stands seated alert asleep keeps =>
    refine .waiting ((plan.watchful host).stands_of_stands stands)
      (seated.of_steps ha.toSteps fun _ _ _ hw => hm _ ((plan.watchful host).suffix_of_waits hw))
      (ha.isReady_eq ▸ alert) (fun hn => ⟨(asleep hn).1.of_steps ha.toSteps, nofun⟩) ?_
    exact hunder ▸ keeps.mono ha.yielded_mono
  | finished came =>
    refine .finished fun part id hi => ?_
    rw [hunder] at hi
    exact (came part id hi).mono ha.yielded_mono
  | failed => exact .failed
  | exhausted => exact .exhausted

/-- An advance of the render, whose journal under its place tells what it has come for before. -/
theorem kept_of_reaches {state : Option (plan.process host).State}
    (ha : store.Acts host ([number] <:+ ·) (plan.Asks host ·)
      ((plan.process host).advance [number] state store).store
      ((plan.account host).tell [number] state store))
    (hr : (plan.watchful host).Reaches host plan [number] none
      (journal.under [number] ++ (plan.account host).tell [number] state store)
      ((plan.process host).advance [number] state store)) :
    let next := (underway plan state true).advance number store
    store.Acts host ([number] <:+ ·) (plan.Asks host ·) next.2.1 next.2.2 ∧
      Kept plan number next.2.1 (journal ++ next.2.2) [] next.1 := by
  have hunder : (journal ++ (plan.account host).tell [number] state store).under [number] =
      journal.under [number] ++ (plan.account host).tell [number] state store := by
    rw [Journal.under_append, Journal.under_eq_self fun part deed hd => ha.within part deed hd]
  rw [← hunder] at hr
  simp only [Watched.advance]
  generalize (plan.process host).advance [number] state store = advance at ha hr
  obtain ⟨reached, news, after⟩ := advance
  cases reached with
  | ended outcome =>
    cases outcome with
    | ok text => exact ⟨ha, .finished fun part id hi => hr.2 part id (.inl hi)⟩
    | error error => exact ⟨ha, .failed⟩
  | exhausted => exact ⟨ha, .exhausted⟩
  | waiting later =>
    obtain ⟨hrests, hasleep, hkeeps⟩ := hr
    have hquiet : ∀ part, part ∉ ([] : List Place) := fun _ => List.not_mem_nil
    refine ⟨ha, .waiting hrests.stands hrests.seated ?_
      (fun hn => ⟨hasleep hn, fun part hp => absurd hp (hquiet part)⟩) hkeeps⟩
    exact (plan.watchful host).alert_mono (fun _ _ part _ h => h.resolve_right (hquiet part))
      hrests.alert

theorem Kept.advance (h : Kept plan number store journal [] watched) (hs : store.Sound host) :
    let next := watched.advance number store
    store.Acts host ([number] <:+ ·) (plan.Asks host ·) next.2.1 next.2.2 ∧
      Kept plan number next.2.1 (journal ++ next.2.2) [] next.1 := by
  cases h with
  | fresh quiet =>
    refine kept_of_reaches ((plan.watchful host).acts hs nofun) ?_
    rw [quiet]
    exact (plan.watchful host).reaches hs nofun
  | @waiting state news stands seated alert asleep keeps =>
    cases news with
    | false =>
      have hkept : Kept plan number store journal [] (.underway plan (some state) false) :=
        .waiting stands seated alert asleep keeps
      exact ⟨.refl hs, by simpa [Watched.advance] using hkept⟩
    | true =>
      have hrest : ∀ s, some state = some s → (plan.watchful host).Rests host [number] s store := by
        rintro _ ⟨⟩
        exact ⟨stands, seated, (plan.watchful host).alert_mono (fun _ _ _ _ h => .inl h) alert⟩
      have ha := (plan.watchful host).acts hs hrest
      exact kept_of_reaches ha (keeps.reaches ha.yielded_mono ((plan.watchful host).reaches hs hrest))
  | finished came => exact ⟨.refl hs, by simpa [Watched.advance] using Kept.finished came⟩
  | failed => exact ⟨.refl hs, .failed⟩
  | exhausted => exact ⟨.refl hs, .exhausted⟩

/-- The render that the news is for hears it. -/
theorem Kept.hear (h : Kept plan number store journal told watched) (path : List Nat) :
    Kept plan number store journal (told ++ [path.reverse ++ [number]]) (watched.hear path) := by
  cases h with
  | fresh quiet => exact .fresh quiet
  | waiting stands seated alert asleep keeps =>
    exact .waiting ((plan.watchful host).stands_hear path stands)
      (fun id n part hw => seated id n part ((plan.watchful host).waits_hear.1 hw))
      ((plan.watchful host).heeds.alert_told path alert) nofun
      ((plan.watchful host).keeps_hear keeps path)
  | finished came => exact .finished came
  | failed => exact .failed
  | exhausted => exact .exhausted

/-- The others hear nothing. -/
theorem Kept.other {place : Place} (h : Kept plan number store journal told watched)
    (hother : ¬ [number] <:+ place) : Kept plan number store journal (told ++ [place]) watched := by
  cases h with
  | fresh quiet => exact .fresh quiet
  | waiting stands seated alert asleep keeps =>
    exact .waiting stands seated ((plan.watchful host).heeds.alert_other hother alert)
      (fun hn => ⟨(asleep hn).1, Process.View.not_suffix_other (asleep hn).2 hother⟩) keeps
  | finished came => exact .finished came
  | failed => exact .failed
  | exhausted => exact .exhausted

/-- When all who wait for a value have been told, it may become ready. -/
theorem Kept.release {id : PendingId} (h : Kept plan number store journal told watched)
    (htold : ∀ n part, store.Occupied id n part → part ∈ told) :
    Kept plan number (store.release id) journal [] watched := by
  cases h with
  | fresh quiet => exact .fresh quiet
  | @waiting state news stands seated alert asleep keeps =>
    exact .waiting ((plan.watchful host).stands_of_stands stands) (seated.release id)
      ((plan.watchful host).alert_mono
        (fun _ _ _ hw h => seated.ready_or_told htold hw (h.resolve_right nofun)) alert)
      (fun hn => ⟨(asleep hn).1.release (plan.watchful host).heeds seated htold (asleep hn).2, nofun⟩)
      (keeps.mono fun _ hy => hy)
  | finished came => exact .finished came
  | failed => exact .failed
  | exhausted => exact .exhausted

theorem Kept.stop (h : Kept plan number store journal told watched) :
    Kept plan number store journal told watched.stop := by
  rw [Watched.stop]
  split
  · exact .exhausted
  · exact h

theorem hasNews_stop (watched : Watched host) : watched.stop.hasNews = false := by
  rw [hasNews, rendering_stop]
  exact watched.rendering.hasNews_stop

end Watched

namespace Chronicle

variable {plans : List (Plan Text)} {number : Nat} {store : Store} {journal told more : Journal}
  {parts : List Place} {renders later last : List (Watched host)} {place : Place}

/-- Renders of these plans, from a number on, of which these parts have been told. -/
abbrev AllKept (plans : List (Plan Text)) (number : Nat) (store : Store) (journal : Journal)
    (parts : List Place) (renders : List (Watched host)) : Prop :=
  List.Forall₂ (fun numbered watched => watched.Kept numbered.1 numbered.2 store journal parts)
    (plans.zipIdx number) renders

/-- The places of renders of these plans, from a number on. -/
def Within (plans : List (Plan Text)) (number : Nat) (part : Place) : Prop :=
  ∃ numbered ∈ plans.zipIdx number, [numbered.2] <:+ part

/-- Whatever is asked for, the plan of the render that does so may ask for. -/
def Asked (host : Host) (plans : List (Plan Text)) (number : Nat) (journal : Journal) : Prop :=
  ∀ part id, (part, .asks id) ∈ journal →
    ∃ numbered ∈ plans.zipIdx number, [numbered.2] <:+ part ∧ numbered.1.Asks host id

/-- The renders that are over stay as they are, and do nothing. -/
def Inert (number : Nat) (renders later : List (Watched host)) (told : Journal) : Prop :=
  ∀ (index : Nat) (watched : Watched host), renders[index]? = some watched → watched.isOver = true →
    later[index]? = some watched ∧ told.under [number + index] = []

theorem Asked.nil : Asked host plans number [] := fun _ _ hi => absurd hi List.not_mem_nil

theorem Asked.append (h : Asked host plans number told) (h' : Asked host plans number more) :
    Asked host plans number (told ++ more) := fun part id hi =>
  (List.mem_append.1 hi).elim (h part id) (h' part id)

theorem Inert.refl : Inert number renders renders [] := fun _ _ hi _ => ⟨hi, rfl⟩

theorem Inert.trans (h : Inert number renders later told) (h' : Inert number later last more) :
    Inert number renders last (told ++ more) := by
  intro index watched hi ho
  obtain ⟨hl, htold⟩ := h index watched hi ho
  obtain ⟨hf, hmore⟩ := h' index watched hl ho
  exact ⟨hf, by rw [Journal.under_append, htold, hmore, List.append_nil]⟩

theorem AllKept.of_acts {mine : Place → Prop} {asks : PendingId → Prop} {after : Store}
    (h : AllKept plans number store journal [] renders)
    (ha : store.Acts host mine asks after told)
    (hm : ∀ n, number ≤ n → ∀ part, [n] <:+ part → ¬ mine part) :
    AllKept plans number after (journal ++ told) [] renders :=
  forall₂_zipIdx_imp h fun numbered hn _ hk => hk.of_acts ha (hm numbered.2 hn)

theorem heeds_kept (host : Host) (store : Store) (journal : Journal) :
    Heeds (fun parts (numbered : Plan Text × Nat) (watched : Watched host) =>
      watched.Kept numbered.1 numbered.2 store journal parts) Watched.hear :=
  ⟨fun path hk => hk.hear path, fun hk hother => hk.other hother⟩

/-- What the renders of these plans, from a number on, do together. -/
structure Goes (plans : List (Plan Text)) (number : Nat) (journal : Journal)
    (renders : List (Watched host)) (store : Store)
    (next : List (Watched host) × Store × Journal) : Prop where
  acts : store.Acts host (Within plans number) (fun _ => True) next.2.1 next.2.2
  asked : Asked host plans number next.2.2
  kept : AllKept plans number next.2.1 (journal ++ next.2.2) [] next.1
  inert : Inert number renders next.1 next.2.2

theorem round_goes (hs : store.Sound host) (h : AllKept plans number store journal [] renders) :
    Goes plans number journal renders store (round number renders store) := by
  induction plans generalizing number renders store journal with
  | nil =>
    cases h
    exact ⟨.refl hs, .nil, .nil, nofun⟩
  | cons plan plans ih =>
    cases h with
    | @cons _ watched _ renders hfirst hrest =>
      obtain ⟨hact, hadvanced⟩ := hfirst.advance hs
      -- the first render is none of the others
      have hother : ∀ n, number + 1 ≤ n → ∀ part, [n] <:+ part → ¬ [number] <:+ part := by
        intro n hn part hp hp'
        have he : n = number := eq_of_cons_suffix hp hp'
        omega
      have hgo := ih hact.sound (AllKept.of_acts hrest hact hother)
      have hmine : ∀ part, [number] <:+ part → ¬ Within plans (number + 1) part := by
        rintro part hp ⟨numbered, hn, hp'⟩
        exact hother numbered.2 (List.le_snd_of_mem_zipIdx hn) part hp' hp
      refine ⟨(hact.mono ?_ fun _ _ => trivial).append (hgo.acts.mono ?_ fun _ => id), ?_, ?_, ?_⟩
      · exact fun part hp => ⟨_, List.mem_cons_self .., hp⟩
      · exact fun part ⟨numbered, hn, hp⟩ => ⟨numbered, List.mem_cons_of_mem _ hn, hp⟩
      · refine Asked.append (fun part id hi => ?_) fun part id hi => ?_
        · exact ⟨_, List.mem_cons_self .., hact.within part _ hi, hact.asked part id hi⟩
        · obtain ⟨numbered, hn, ha⟩ := hgo.asked part id hi
          exact ⟨numbered, List.mem_cons_of_mem _ hn, ha⟩
      · simp only [round, ← List.append_assoc]
        exact .cons (hadvanced.of_acts hgo.acts hmine) hgo.kept
      · intro index earlier hi ho
        cases index with
        | zero =>
          obtain rfl : watched = earlier := by simpa using hi
          simp only [round, Watched.advance_of_isOver ho] at hgo ⊢
          refine ⟨rfl, Journal.under_eq_nil fun part deed hd hp => ?_⟩
          exact hmine part hp (hgo.acts.within part deed hd)
        | succ index =>
          obtain ⟨hl, hu⟩ := hgo.inert index earlier (by simpa using hi) ho
          refine ⟨by simpa [round] using hl, ?_⟩
          have hindex : number + (index + 1) = number + 1 + index := by omega
          simp only [round, Journal.under_append, hindex, hu, List.append_nil]
          exact Journal.under_eq_nil fun part deed hd hp =>
            hother _ (by omega) part hp (hact.within part deed hd)

theorem rounds_goes (fuel : Nat) (hs : store.Sound host)
    (h : AllKept plans 0 store journal [] renders) :
    Goes plans 0 journal renders store (rounds fuel renders store) ∧
      ∀ watched ∈ (rounds fuel renders store).1, watched.hasNews = false := by
  induction fuel generalizing renders store journal with
  | zero =>
    refine ⟨⟨.refl hs, .nil, ?_, fun index watched hi ho => ?_⟩, fun watched hw => ?_⟩
    · simpa [rounds] using List.forall₂_map_right_iff.2 (h.imp fun _ _ hk => hk.stop)
    · simp [rounds, hi, Watched.stop_of_isOver ho, Journal.under]
    · obtain ⟨earlier, -, rfl⟩ := List.mem_map.1 hw
      exact earlier.hasNews_stop
  | succ fuel ih =>
    by_cases hn : renders.any Watched.hasNews = true
    · simp only [rounds, hn, if_true]
      have hround := round_goes hs h
      obtain ⟨hgo, hquiet⟩ := ih hround.acts.sound hround.kept
      refine ⟨⟨hround.acts.append hgo.acts, hround.asked.append hgo.asked, ?_,
        hround.inert.trans hgo.inert⟩, hquiet⟩
      simpa only [List.append_assoc] using hgo.kept
    · simp only [rounds, hn]
      refine ⟨⟨.refl hs, .nil, by simpa using h, .refl⟩, fun watched hw => ?_⟩
      simpa using mt (fun hnews => List.any_eq_true.2 ⟨watched, hw, hnews⟩) hn

/-- What holds of a chronicle between two actions, when it has started renders of these plans. -/
structure Kept (plans : List (Plan Text)) (chronicle : Chronicle host) : Prop where
  store : chronicle.store.Sound host
  renders : AllKept plans 0 chronicle.store chronicle.journal [] chronicle.renders
  quiet : ∀ watched ∈ chronicle.renders, watched.hasNews = false
  within : ∀ part deed, (part, deed) ∈ chronicle.journal → part = [] ∨ Within plans 0 part
  asked : Asked host plans 0 chronicle.journal
  tells : chronicle.journal.Tells host .empty chronicle.store

/-- What is told when one chronicle goes on to another. -/
structure Follows (before after : Chronicle host) (told : Journal) : Prop where
  journal_eq : after.journal = before.journal ++ told
  tells : told.Tells host before.store after.store
  inert : Inert 0 before.renders after.renders told

variable {chronicle middle after : Chronicle host}

theorem kept_new (host : Host) (config : Config) : (new host config).Kept [] where
  store := Store.sound_empty
  renders := .nil
  quiet := nofun
  within := nofun
  asked := nofun
  tells := Journal.tells_nil host .empty

theorem Follows.refl (chronicle : Chronicle host) : chronicle.Follows chronicle [] :=
  ⟨by simp, Journal.tells_nil host chronicle.store, .refl⟩

theorem Follows.trans (h : chronicle.Follows middle told) (h' : middle.Follows after more) :
    chronicle.Follows after (told ++ more) :=
  ⟨by rw [h'.journal_eq, h.journal_eq, List.append_assoc], h.tells.append h'.tells,
    h.inert.trans h'.inert⟩

/-- The renders go as far as they can. -/
theorem kept_proceed (fuel : Nat) (plans : List (Plan Text)) (chronicle : Chronicle host)
    (hs : chronicle.store.Sound host)
    (h : AllKept plans 0 chronicle.store chronicle.journal [] chronicle.renders)
    (hw : ∀ part deed, (part, deed) ∈ chronicle.journal → part = [] ∨ Within plans 0 part)
    (ha : Asked host plans 0 chronicle.journal)
    (ht : chronicle.journal.Tells host .empty chronicle.store) :
    (chronicle.proceed fuel).Kept plans ∧
      ∃ told, chronicle.Follows (chronicle.proceed fuel) told := by
  obtain ⟨hgo, hquiet⟩ := rounds_goes fuel hs h
  refine ⟨⟨hgo.acts.sound, hgo.kept, hquiet, fun part deed hd => ?_, ha.append hgo.asked,
    ht.append hgo.acts.toTells⟩, _, rfl, hgo.acts.toTells, hgo.inert⟩
  exact (List.mem_append.1 hd).elim (hw part deed) fun hd => .inr (hgo.acts.within part deed hd)

/-- Nothing is told so far of a render that starts now. -/
theorem Kept.under_eq_nil (h : chronicle.Kept plans) : chronicle.journal.under [plans.length] = [] := by
  refine Journal.under_eq_nil fun part deed hd hp => ?_
  rcases h.within part deed hd with rfl | ⟨numbered, hn, hp'⟩
  · simpa using hp.length_le
  · have hlt := List.snd_lt_of_mem_zipIdx hn
    have he := eq_of_cons_suffix hp hp'
    omega

theorem Kept.started (h : chronicle.Kept plans) (plan : Plan Text) :
    AllKept (plans ++ [plan]) 0 chronicle.store chronicle.journal []
      (chronicle.renders ++ [.underway plan none true]) := by
  rw [AllKept, List.zipIdx_append]
  exact List.rel_append h.renders (.cons (.fresh (by simpa using h.under_eq_nil)) .nil)

theorem Kept.start (h : chronicle.Kept plans) (fuel : Nat) (request : Request) :
    (chronicle.act fuel (.start request)).Kept (plans ++ [request.plan fuel chronicle.config]) ∧
      ∃ told, chronicle.Follows (chronicle.act fuel (.start request)) told := by
  have hmono : ∀ numbered ∈ plans.zipIdx,
      numbered ∈ (plans ++ [request.plan fuel chronicle.config]).zipIdx := fun numbered hn => by
    rw [List.zipIdx_append]
    exact List.mem_append_left _ hn
  obtain ⟨hkept, told, hfollows⟩ := kept_proceed fuel
    (plans ++ [request.plan fuel chronicle.config])
    { chronicle with
      renders := chronicle.renders ++ [.underway (request.plan fuel chronicle.config) none true] }
    h.store (h.started _)
    (fun part deed hd => (h.within part deed hd).imp_right fun ⟨numbered, hn, hp⟩ =>
      ⟨numbered, hmono numbered hn, hp⟩)
    (fun part id hi => (h.asked part id hi).imp fun numbered hn => hn.imp_left (hmono numbered))
    h.tells
  refine ⟨hkept, told, hfollows.journal_eq, hfollows.tells, fun index watched hi ho => ?_⟩
  have hlt := (List.getElem?_eq_some_iff.1 hi).1
  exact hfollows.inert index watched (List.getElem?_append_left hlt ▸ hi) ho

/-- News is nothing to a render that is over. -/
theorem getElem?_foldl_tell {index : Nat} {watched : Watched host} (places : List Place)
    (hi : renders[index]? = some watched) (ho : watched.isOver = true) :
    (places.foldl (fun renders place => tell place renders) renders)[index]? = some watched := by
  induction places generalizing renders with
  | nil => exact hi
  | cons place places ih =>
    refine ih ?_
    simp only [tell]
    split
    · exact hi
    · rw [List.getElem?_modify, hi]
      split <;> simp [Watched.hear_of_isOver ho]

/-- All who wait for a value have been told of its release. -/
theorem Kept.released (h : chronicle.Kept plans) (id : PendingId) :
    AllKept plans 0 (chronicle.store.release id) chronicle.journal []
      ((chronicle.store.seatsOf id).places.foldl (fun renders place => tell place renders)
        chronicle.renders) :=
  ((heeds_kept host chronicle.store chronicle.journal).foldl_tell [] h.renders
    (chronicle.store.seatsOf id).places).imp fun _ _ hk =>
      hk.release fun n part ho => by simpa using Seats.mem_places ho

theorem Kept.release (h : chronicle.Kept plans) (fuel : Nat) (id : PendingId) :
    (chronicle.act fuel (.release id)).Kept plans ∧
      ∃ told, chronicle.Follows (chronicle.act fuel (.release id)) told := by
  have hrelease : Journal.Tells host chronicle.store (chronicle.store.release id) [] :=
    Journal.tells_of_quiet rfl rfl nofun rfl rfl fun _ => .inl
  obtain ⟨hkept, told, hfollows⟩ := kept_proceed fuel plans
    { chronicle with
      store := chronicle.store.release id
      renders := (chronicle.store.seatsOf id).places.foldl
        (fun renders place => tell place renders) chronicle.renders }
    (Store.sound_release h.store id) (h.released id) h.within h.asked
    (by simpa using h.tells.append hrelease)
  refine ⟨hkept, told, hfollows.journal_eq, hrelease.append hfollows.tells,
    fun index watched hi ho => ?_⟩
  exact hfollows.inert index watched (getElem?_foldl_tell _ hi ho) ho

/-- What the engine does itself leaves the renders alone. -/
theorem Kept.of_acts {store : Store} (h : chronicle.Kept plans) (config : Config)
    (ha : chronicle.store.Acts host (· = []) (fun _ => False) store told) :
    let after : Chronicle host := ⟨config, store, chronicle.renders, chronicle.journal ++ told⟩
    after.Kept plans ∧ ∃ told, chronicle.Follows after told := by
  have hnot : ∀ n (part : Place), [n] <:+ part → part ≠ [] := by
    rintro n _ hp rfl
    simpa using hp.length_le
  refine ⟨⟨ha.sound, AllKept.of_acts h.renders ha fun n _ => hnot n, h.quiet, fun part deed hd => ?_,
    h.asked.append fun part id hi => (ha.asked part id hi).elim, h.tells.append ha.toTells⟩,
    told, rfl, ha.toTells, fun index watched hi _ => ⟨hi, ?_⟩⟩
  · exact (List.mem_append.1 hd).elim (h.within part deed) fun hd => .inl (ha.within part deed hd)
  · exact Journal.under_eq_nil fun part deed hd hp => hnot _ part hp (ha.within part deed hd)

theorem Kept.act (h : chronicle.Kept plans) (fuel : Nat) (action : Action) :
    (chronicle.act fuel action).Kept
        (plans ++ Engine.plans fuel (action.start? chronicle.config).toList) ∧
      ∃ told, chronicle.Follows (chronicle.act fuel action) told := by
  have hsame : plans ++ Engine.plans fuel [] = plans := by simp [Engine.plans]
  have hjournal : chronicle.journal ++ [] = chronicle.journal := List.append_nil _
  cases action with
  | start request => exact h.start fuel request
  | release id => exact hsame.symm ▸ h.release fuel id
  | compile source tags =>
    exact hsame.symm ▸ h.of_acts chronicle.config (Store.acts_fetch h.store source _ rfl)
  | setTags tags =>
    have hset := h.of_acts { chronicle.config with tags } (.refl h.store)
    rw [hjournal] at hset
    exact hsame.symm ▸ hset
  | setEscape escape =>
    have hset := h.of_acts { chronicle.config with escape } (.refl h.store)
    rw [hjournal] at hset
    exact hsame.symm ▸ hset
  | clearCache =>
    have hclear := h.of_acts chronicle.config (Store.acts_clear h.store)
    rw [hjournal] at hclear
    exact hsame.symm ▸ hclear

theorem config_act (chronicle : Chronicle host) (fuel : Nat) (action : Action) :
    (chronicle.act fuel action).config = action.config chronicle.config := by
  cases action <;> rfl

theorem Kept.run (h : chronicle.Kept plans) (fuel : Nat) (actions : List Action) :
    (chronicle.run fuel actions).Kept
        (plans ++ Engine.plans fuel (Action.starts chronicle.config actions)) ∧
      ∃ told, chronicle.Follows (chronicle.run fuel actions) told := by
  induction actions generalizing chronicle plans with
  | nil => exact ⟨by simpa [run, Engine.plans, Action.starts] using h, [], .refl chronicle⟩
  | cons action actions ih =>
    obtain ⟨hact, told, hfollows⟩ := h.act fuel action
    obtain ⟨hrun, more, hlater⟩ := ih hact
    refine ⟨?_, told ++ more, hfollows.trans hlater⟩
    simpa [run, Engine.plans, Action.starts, config_act] using hrun

/-- What holds of the chronicle of a run on a new engine. -/
theorem kept_run_new (host : Host) (fuel : Nat) (config : Config) (actions : List Action) :
    ((new host config).run fuel actions).Kept (Engine.plans fuel (Action.starts config actions)) :=
  ((kept_new host config).run fuel actions).1

end Chronicle
end Stencil
