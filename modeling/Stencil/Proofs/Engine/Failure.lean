import Stencil.Proofs.Engine.Watchful

/-!
# Failures

Whatever the lambdas answer, no failure is swallowed: a render that is over with a text has got a
value for everything that it came for, and once a render is over nothing more is done for it. A
render that came for a value which has failed is over with an error, except where the failure is a
later member's of a large join: there it is held back for as long as an earlier member waits.
-/

namespace Stencil

variable {host : Host}

/-- A large join of a render holds back the failure of a part: an earlier member still waits for a
value that is not ready. -/
def Journal.HoldsBack (host : Host) (journal : Journal) (store : Store) (render : Nat)
    (part : Place) : Prop :=
  ∃ join size, (join, .joins size) ∈ journal ∧ [render] <:+ join ∧ Process.sweepLimit < size ∧
    ∃ member, (member :: join) <:+ part ∧
      ∃ earlier < member, ∃ other id, (other, .asks id) ∈ journal ∧ (earlier :: join) <:+ other ∧
        store.isReady host id = false

namespace Watched

variable {plan : Plan Text} {number : Nat} {store : Store} {journal : Journal} {part : Place}
  {id : PendingId} {error : Error} {watched : Watched host}

/-- What has become of a render that came for a value which has failed. -/
theorem Kept.status_of_failed (h : Kept plan number store journal [] watched)
    (hquiet : watched.hasNews = false) (hm : (part, .asks id) ∈ journal) (hp : [number] <:+ part)
    (hr : store.isReady host id = true) (he : (host.pending id).result = .error error) :
    (∃ error, watched.rendering.status = .finished (.error error)) ∨
      watched.rendering.status = .exhausted ∨
      watched.rendering.status = .waiting ∧ journal.HoldsBack host store number part := by
  have hunder : (part, .asks id) ∈ journal.under [number] := Journal.mem_under.2 ⟨hm, hp⟩
  have hnot : ¬ store.Came host id := by
    rintro ⟨-, v, hv⟩
    cases hv.symm.trans he
  cases h with
  | fresh => cases hquiet
  | finished came => exact absurd (came part id hunder) hnot
  | failed => exact .inl ⟨_, rfl⟩
  | exhausted => exact .inr (.inl rfl)
  | @waiting state news stands seated alert asleep keeps =>
    obtain rfl : news = false := hquiet
    have hasleep := (asleep rfl).1
    have howes := (keeps.wanted part id (.inl hunder)).resolve_left hnot
    rcases howes with ⟨n, hw⟩ | ⟨join, size, member, hh, hpart⟩
    · rw [hasleep.not_ready id n part hw] at hr
      cases hr
    · obtain ⟨earlier, hlt, other, n, part', hw, hpart'⟩ :=
        (plan.watchful host).behind stands hasleep hh
      have hjoin := Journal.mem_under.1 ((keeps.holds join size member hh).resolve_left nofun)
      have hasks := Journal.mem_under.1 ((keeps.waits other n part' hw).resolve_left nofun)
      exact .inr (.inr ⟨rfl, join, size, hjoin.1, hjoin.2,
        (plan.watchful host).large_of_holds hh, member, hpart, earlier, hlt, part', other, hasks.1,
        hpart', hasleep.not_ready other n part' hw⟩)

theorem eq_of_status {outcome : Except Error Text}
    (h : watched.rendering.status = .finished outcome) : watched = .finished outcome := by
  cases watched with
  | finished other => exact congrArg Watched.finished (Status.finished.inj h)
  | underway | exhausted => cases h

end Watched

namespace Chronicle

variable {plans : List (Plan Text)} {chronicle : Chronicle host} {index : Nat}
  {watched : Watched host}

theorem Kept.getElem? (h : chronicle.Kept plans) (hi : chronicle.renders[index]? = some watched) :
    ∃ plan, plans[index]? = some plan ∧
      watched.Kept plan index chronicle.store chronicle.journal [] := by
  obtain ⟨hlt, rfl⟩ := List.getElem?_eq_some_iff.1 hi
  have hlt' : index < plans.length := by simpa [← h.renders.length_eq] using hlt
  refine ⟨plans[index], List.getElem?_eq_getElem hlt', ?_⟩
  simpa using h.renders.get (i := index) (by simpa using hlt') hlt

end Chronicle

namespace Engine

theorem run_new (host : Host) (fuel : Nat) (config : Config) (actions : List Action) :
    (new config).run host fuel actions = ((Chronicle.new host config).run fuel actions).engine :=
  ((Chronicle.new host config).engine_run fuel actions).symm

theorem getElem?_statuses {chronicle : Chronicle host} {index : Nat} {status : Status} :
    chronicle.engine.statuses[index]? = some status ↔
      ∃ watched, chronicle.renders[index]? = some watched ∧ watched.rendering.status = status := by
  simp [statuses, Chronicle.engine]

/-- Once a value has failed that was asked for on behalf of a render, the render is over with an
error, or a large join of it holds the failure back and waits for an earlier member. Of a render whose
nested work reaches the bound nothing is said. -/
theorem run_failure (host : Host) (fuel : Nat) (config : Config) (actions : List Action)
    {render : Nat} {part : Place} {id : PendingId} {error : Error}
    (hasks : (part, .asks id) ∈ journal host fuel config actions) (hp : [render] <:+ part)
    (hr : ((new config).run host fuel actions).store.isReady host id = true)
    (he : (host.pending id).result = .error error) :
    let run := (new config).run host fuel actions
    (∃ error, run.statuses[render]? = some (.finished (.error error))) ∨
      run.statuses[render]? = some .exhausted ∨
      run.statuses[render]? = some .waiting ∧
        (journal host fuel config actions).HoldsBack host run.store render part := by
  have hkept := Chronicle.kept_run_new host fuel config actions
  rw [run_new] at hr ⊢
  unfold journal at hasks ⊢
  generalize (Chronicle.new host config).run fuel actions = chronicle at *
  -- whoever asks is a render that has been started
  obtain ⟨numbered, hn, hp', -⟩ := hkept.asked part id hasks
  obtain rfl : numbered.2 = render := eq_of_cons_suffix hp' hp
  have hlt : numbered.2 < chronicle.renders.length := by
    rw [← hkept.renders.length_eq, List.length_zipIdx]
    simpa using List.snd_lt_of_mem_zipIdx hn
  obtain ⟨watched, hi⟩ : ∃ watched, chronicle.renders[numbered.2]? = some watched :=
    ⟨_, List.getElem?_eq_getElem hlt⟩
  obtain ⟨plan, -, hrender⟩ := hkept.getElem? hi
  have hquiet := hkept.quiet watched (List.mem_of_getElem? hi)
  have hstatus : ∀ status, watched.rendering.status = status →
      chronicle.engine.statuses[numbered.2]? = some status :=
    fun status hs => getElem?_statuses.2 ⟨watched, hi, hs⟩
  rcases hrender.status_of_failed hquiet hasks hp hr he with ⟨error, hs⟩ | hs | ⟨hs, hholds⟩
  · exact .inl ⟨error, hstatus _ hs⟩
  · exact .inr (.inl (hstatus _ hs))
  · exact .inr (.inr ⟨hstatus _ hs, hholds⟩)

/-- A manual value that becomes a text, and one that fails. -/
def waitsAndFails : Host where
  pending
    | 0 => ⟨.ok (.string ['a']), true⟩
    | 1 => ⟨.error (.valueFailed "boom".toList), false⟩
    | _ => ⟨.ok .null, false⟩
  inline _ _ := .null
  block _ _ _ := .value .null

/-- A render that shows the text. -/
def onlyText : Request where
  template := .string "{{m}}".toList
  view := .map [(['m'], .pending 0), (['e'], .pending 1)]
  partials := .empty
  tags := none
  escape := none

/-- A render with more tags than a join looks at in order, of which the second fails while the first
waits. -/
def manyTags : Request :=
  { onlyText with
    template := .string ("{{m}}{{e}}".toList ++ (List.replicate 29 "{{x}}".toList).flatten) }

theorem statuses_manyTags :
    ((new default).run waitsAndFails 3 [.start manyTags]).statuses = [.waiting] := by
  decide +kernel

theorem asks_manyTags :
    ([1, 0], .asks 1) ∈ journal waitsAndFails 3 default [.start manyTags] :=
  Journal.mem_asked.1 (by decide +kernel)

/-- The failure of the second tag is held back behind the first. -/
theorem run_failure_manyTags :
    let run := (new default).run waitsAndFails 3 [.start manyTags]
    ([1, 0], .asks 1) ∈ journal waitsAndFails 3 default [.start manyTags] ∧
      run.statuses[0]? = some .waiting ∧
      (journal waitsAndFails 3 default [.start manyTags]).HoldsBack waitsAndFails run.store 0
        [1, 0] := by
  intro run
  have hwaiting : run.statuses[0]? = some .waiting := by rw [statuses_manyTags, List.getElem?_cons_zero]
  have hready : run.store.isReady waitsAndFails 1 = true := by decide +kernel
  have hplace : [0] <:+ [1, 0] := ⟨[1], rfl⟩
  have hdecided := run_failure waitsAndFails 3 default [.start manyTags] asks_manyTags hplace hready rfl
  rcases hdecided with ⟨error, hs⟩ | hs | ⟨hs, hholds⟩
  · cases hs.symm.trans hwaiting
  · cases hs.symm.trans hwaiting
  · exact ⟨asks_manyTags, hs, hholds⟩

/-- So a render may wait though a value that it came for has failed. -/
theorem waiting_of_failed_manyTags :
    let run := (new default).run waitsAndFails 3 [.start manyTags]
    run.statuses[0]? = some .waiting ∧
      ∃ part id error, (part, .asks id) ∈ journal waitsAndFails 3 default [.start manyTags] ∧
        [0] <:+ part ∧ run.store.isReady waitsAndFails id = true ∧
        (waitsAndFails.pending id).result = .error error := by
  intro run
  have hready : run.store.isReady waitsAndFails 1 = true := by decide +kernel
  exact ⟨by rw [statuses_manyTags, List.getElem?_cons_zero], [1, 0], 1, _, asks_manyTags, ⟨[1], rfl⟩,
    hready, rfl⟩

/-- A render that is over with a text has got a value for everything that was asked for on its
behalf. Once it is over, with a text or an error, it stays so, and whatever is begun, called or
compiled later is told of other places. -/
theorem run_over (host : Host) (fuel : Nat) (config : Config) (front back : List Action)
    {render : Nat} {outcome : Except Error Text}
    (h : ((new config).run host fuel front).statuses[render]? = some (.finished outcome)) :
    let before := (new config).run host fuel front
    let after := (new config).run host fuel (front ++ back)
    (∀ text, outcome = .ok text → ∀ part id,
      (part, .asks id) ∈ journal host fuel config front → [render] <:+ part →
      before.store.Came host id) ∧
    after.statuses[render]? = some (.finished outcome) ∧
    ∃ later, journal host fuel config (front ++ back) = journal host fuel config front ++ later ∧
      later.Tells host before.store after.store ∧
      ∀ part deed, (part, deed) ∈ later → ¬ [render] <:+ part := by
  have hkept := Chronicle.kept_run_new host fuel config front
  obtain ⟨-, later, hfollows⟩ := hkept.run fuel back
  rw [← Chronicle.run_append] at hfollows
  simp only [run_new, getElem?_statuses] at h ⊢
  unfold journal
  generalize (Chronicle.new host config).run fuel front = before at *
  generalize (Chronicle.new host config).run fuel (front ++ back) = after at *
  obtain ⟨watched, hi, hs⟩ := h
  obtain rfl := Watched.eq_of_status hs
  obtain ⟨hafter, hlater⟩ := hfollows.inert render _ hi rfl
  refine ⟨?_, ⟨_, hafter, rfl⟩, later, hfollows.journal_eq, hfollows.tells, ?_⟩
  · rintro text rfl part id hasks hp
    obtain ⟨plan, -, hrender⟩ := hkept.getElem? hi
    cases hrender with
    | finished came => exact came part id (Journal.mem_under.2 ⟨hasks, hp⟩)
  · intro part deed hd hp
    rw [Nat.zero_add] at hlater
    exact List.not_mem_nil (hlater ▸ Journal.mem_under.2 ⟨hd, hp⟩)

/-- The text has come, and what is done for another render later is none of this one's. -/
theorem run_over_onlyText :
    let front := [.start onlyText, .release 0]
    let after := (new default).run waitsAndFails 3 (front ++ [.clearCache, .start manyTags])
    0 ∈ ((new default).run waitsAndFails 3 front).store.yielded ∧
      after.statuses[0]? = some (.finished (.ok ['a'])) ∧
      ∃ later, journal waitsAndFails 3 default (front ++ [.clearCache, .start manyTags]) =
        journal waitsAndFails 3 default front ++ later ∧
        ∀ part deed, (part, deed) ∈ later → ¬ [0] <:+ part := by
  intro front after
  have hover : ((new default).run waitsAndFails 3 front).statuses[0]? =
      some (.finished (.ok ['a'])) := by
    decide +kernel
  have hasks : ([0, 0], .asks 0) ∈ journal waitsAndFails 3 default front :=
    Journal.mem_asked.1 (by decide +kernel)
  obtain ⟨hcame, hafter, later, hjournal, -, hlater⟩ :=
    run_over waitsAndFails 3 default front [.clearCache, .start manyTags] hover
  exact ⟨(hcame ['a'] rfl [0, 0] 0 hasks ⟨[0], rfl⟩).1, hafter, later, hjournal, hlater⟩

end Engine
end Stencil
