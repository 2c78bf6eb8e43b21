import Mathlib
import Stencil.Proofs.Engine.Recorded
import Stencil.Proofs.Plan.Unread

/-!
# Unread data

What a render does not read does not matter to it. With any other data under keys that nothing on its
behalf looks up, it does the same deeds at the same times and comes to the same end, and so do all
other renders on the engine.
-/

namespace Stencil

variable {host : Host} {known : Text → Tags → Prop} {ids : PendingId → Prop}

namespace Watched

variable {watched other : Watched host} {number : Nat} {store : Store}

/-- Two renders that have come equally far, in tandem where they are under way. -/
inductive Abreast (known : Text → Tags → Prop) (ids : PendingId → Prop) :
    Watched host → Watched host → Prop
  | underway {plan other : Plan Text}
    {S : (plan.process host).State → (other.process host).State → Prop}
    (tandem : Process.Tandem known ids Eq (plan.account host) (other.account host) S)
    {s : Option (plan.process host).State} {t : Option (other.process host).State}
    (h : Option.Rel S s t) (news : Bool) :
    Abreast known ids (.underway plan s news) (.underway other t news)
  | finished (outcome : Except Error Text) : Abreast known ids (.finished outcome) (.finished outcome)
  | exhausted : Abreast known ids .exhausted .exhausted

theorem within_advance {part : Place} {deed : Deed}
    (h : (part, deed) ∈ (watched.advance number store).2.2) : [number] <:+ part := by
  cases watched with
  | finished | exhausted => cases h
  | underway plan state news =>
    cases news with
    | false => cases h
    | true =>
      have htold : (part, deed) ∈ (plan.account host).tell [number] state store := by
        simp only [advance] at h
        split at h <;> exact h
      exact (plan.recorded host).within htold

theorem sound_advance (watched : Watched host) (number : Nat) (hs : store.cache.Sound) :
    (watched.advance number store).2.1.cache.Sound := by
  cases watched with
  | finished | exhausted => exact hs
  | underway plan state news =>
    cases news with
    | false => exact hs
    | true =>
      have hsound := (plan.blind host).sound [number] state hs
      simp only [advance]
      split <;> exact hsound

theorem Abreast.advance (h : watched.Abreast known ids other) (hs : store.cache.Sound)
    (hk : (watched.advance number store).2.2.Knows known) :
    (watched.advance number store).1.Abreast known ids (other.advance number store).1 ∧
      (other.advance number store).2 = (watched.advance number store).2 ∧
      (watched.advance number store).2.2.AsksOnly ids := by
  cases h with
  | finished outcome => exact ⟨.finished outcome, rfl, Journal.asksOnly_nil⟩
  | exhausted => exact ⟨.exhausted, rfl, Journal.asksOnly_nil⟩
  | @underway plan other S tandem s t h news =>
    cases news with
    | false => exact ⟨.underway tandem h false, rfl, Journal.asksOnly_nil⟩
    | true =>
      have hknown : ((plan.account host).tell [number] s store).Knows known := by
        simp only [Watched.advance] at hk
        split at hk <;> exact hk
      obtain ⟨hlevel, htold, hasks⟩ := tandem.advance [number] hs h hknown
      simp only [Watched.advance, htold]
      generalize (plan.process host).advance [number] s store = ahead at hlevel
      generalize (other.process host).advance [number] t store = behind at hlevel
      obtain ⟨outcome, news, after, rfl, rfl⟩ | ⟨news, after, rfl, rfl⟩ |
        ⟨s, t, news, after, h, rfl, rfl⟩ := hlevel.cases_eq
      · exact ⟨.finished outcome, rfl, hasks⟩
      · exact ⟨.exhausted, rfl, hasks⟩
      · exact ⟨.underway tandem (.some h) news, rfl, hasks⟩

theorem Abreast.hear (h : watched.Abreast known ids other) (path : List Nat) :
    (watched.hear path).Abreast known ids (other.hear path) := by
  cases h with
  | finished outcome => exact .finished outcome
  | exhausted => exact .exhausted
  | underway tandem h news =>
    refine .underway tandem ?_ true
    cases h with
    | none => exact .none
    | some h => exact .some (tandem.hear path h)

theorem Abreast.hasNews_eq (h : watched.Abreast known ids other) :
    other.hasNews = watched.hasNews := by
  cases h <;> rfl

theorem Abreast.status_eq (h : watched.Abreast known ids other) :
    other.rendering.status = watched.rendering.status := by
  cases h <;> rfl

theorem Abreast.stop (h : watched.Abreast known ids other) :
    watched.stop.Abreast known ids other.stop := by
  unfold Watched.stop
  rw [h.hasNews_eq]
  split
  · exact .exhausted
  · exact h

end Watched

namespace Chronicle

variable {render number : Nat} {renders again : List (Watched host)} {store : Store}

/-- The same renders, from a number on, but for one that is abreast of another. -/
inductive AllAbreast (known : Text → Tags → Prop) (ids : PendingId → Prop) (render : Nat) :
    (number : Nat) → List (Watched host) → List (Watched host) → Prop
  | nil {number : Nat} : AllAbreast known ids render number [] []
  | here {number : Nat} {watched other : Watched host} {renders again : List (Watched host)}
    (he : number = render) (hw : watched.Abreast known ids other)
    (h : AllAbreast known ids render (number + 1) renders again) :
    AllAbreast known ids render number (watched :: renders) (other :: again)
  | other {number : Nat} {watched : Watched host} {renders again : List (Watched host)}
    (hne : number ≠ render) (h : AllAbreast known ids render (number + 1) renders again) :
    AllAbreast known ids render number (watched :: renders) (watched :: again)

theorem round_abreast (h : AllAbreast known ids render number renders again)
    (hs : store.cache.Sound)
    (hk : ((round number renders store).2.2.under [render]).Knows known) :
    AllAbreast known ids render number (round number renders store).1 (round number again store).1 ∧
      (round number again store).2 = (round number renders store).2 ∧
      ((round number renders store).2.2.under [render]).AsksOnly ids := by
  induction h generalizing store with
  | nil => exact ⟨.nil, rfl, Journal.asksOnly_nil⟩
  | @here number watched other renders again he hw h ih =>
    subst he
    have hunder : (watched.advance number store).2.2.under [number] =
        (watched.advance number store).2.2 :=
      Journal.under_eq_self fun _ _ => Watched.within_advance
    simp only [round, Journal.under_append, hunder] at hk ⊢
    obtain ⟨hnext, hsame, hasks⟩ := hw.advance hs hk.left
    obtain ⟨hstore, htold⟩ := Prod.ext_iff.1 hsame
    obtain ⟨hrest, hsame', hasks'⟩ := ih (watched.sound_advance number hs) hk.right
    obtain ⟨hstore', htold'⟩ := Prod.ext_iff.1 hsame'
    rw [hstore, htold, hstore', htold']
    exact ⟨.here rfl hnext hrest, rfl, hasks.append hasks'⟩
  | @other number watched renders again hne h ih =>
    have hunder : (watched.advance number store).2.2.under [render] = [] :=
      Journal.under_eq_nil fun _ _ hm hp => hne (eq_of_cons_suffix (Watched.within_advance hm) hp)
    simp only [round, Journal.under_append, hunder, List.nil_append] at hk ⊢
    obtain ⟨hrest, hsame, hasks⟩ := ih (watched.sound_advance number hs) hk
    obtain ⟨hstore, htold⟩ := Prod.ext_iff.1 hsame
    rw [hstore, htold]
    exact ⟨.other hne hrest, rfl, hasks⟩

theorem sound_round (number : Nat) (renders : List (Watched host)) (hs : store.cache.Sound) :
    (round number renders store).2.1.cache.Sound := by
  induction renders generalizing number store with
  | nil => exact hs
  | cons watched renders ih => exact ih (number + 1) (watched.sound_advance number hs)

theorem AllAbreast.any_hasNews_eq (h : AllAbreast known ids render number renders again) :
    again.any Watched.hasNews = renders.any Watched.hasNews := by
  induction h with
  | nil => rfl
  | here _ hw _ ih => simp only [List.any_cons, hw.hasNews_eq, ih]
  | other _ _ ih => simp only [List.any_cons, ih]

theorem AllAbreast.statuses_eq (h : AllAbreast known ids render number renders again) :
    again.map (fun watched => watched.rendering.status) =
      renders.map fun watched => watched.rendering.status := by
  induction h with
  | nil => rfl
  | here _ hw _ ih => simp only [List.map_cons, hw.status_eq, ih]
  | other _ _ ih => simp only [List.map_cons, ih]

theorem AllAbreast.stop (h : AllAbreast known ids render number renders again) :
    AllAbreast known ids render number (renders.map Watched.stop) (again.map Watched.stop) := by
  induction h with
  | nil => exact .nil
  | here he hw _ ih => exact .here he hw.stop ih
  | other hne _ ih => exact .other hne ih

theorem rounds_abreast (count : Nat) (h : AllAbreast known ids render 0 renders again)
    (hs : store.cache.Sound)
    (hk : ((rounds count renders store).2.2.under [render]).Knows known) :
    AllAbreast known ids render 0 (rounds count renders store).1 (rounds count again store).1 ∧
      (rounds count again store).2 = (rounds count renders store).2 ∧
      ((rounds count renders store).2.2.under [render]).AsksOnly ids := by
  induction count generalizing renders again store with
  | zero => exact ⟨h.stop, rfl, Journal.asksOnly_nil⟩
  | succ count ih =>
    by_cases hn : renders.any Watched.hasNews = true
    · simp only [rounds, h.any_hasNews_eq, hn, if_true, Journal.under_append] at hk ⊢
      obtain ⟨hround, hsame, hasks⟩ := round_abreast h hs hk.left
      obtain ⟨hstore, htold⟩ := Prod.ext_iff.1 hsame
      rw [hstore, htold]
      obtain ⟨hrest, hsame', hasks'⟩ := ih hround (sound_round 0 renders hs) hk.right
      obtain ⟨hstore', htold'⟩ := Prod.ext_iff.1 hsame'
      rw [hstore', htold']
      exact ⟨hrest, rfl, hasks.append hasks'⟩
    · simp only [rounds, h.any_hasNews_eq, hn]
      exact ⟨h, rfl, Journal.asksOnly_nil⟩

theorem AllAbreast.modify (h : AllAbreast known ids render number renders again) (index : Nat)
    (path : List Nat) :
    AllAbreast known ids render number (renders.modify index (Watched.hear path))
      (again.modify index (Watched.hear path)) := by
  induction h generalizing index with
  | nil => simpa using .nil
  | here he hw h ih =>
    cases index with
    | zero => simpa using .here he (hw.hear path) h
    | succ index => simpa using .here he hw (ih index)
  | other hne h ih =>
    cases index with
    | zero => simpa using .other hne h
    | succ index => simpa using .other hne (ih index)

theorem AllAbreast.foldl_tell (h : AllAbreast known ids render 0 renders again)
    (places : List Place) :
    AllAbreast known ids render 0 (places.foldl (fun renders place => tell place renders) renders)
      (places.foldl (fun renders place => tell place renders) again) := by
  induction places generalizing renders again with
  | nil => exact h
  | cons place places ih =>
    refine ih ?_
    simp only [tell]
    split
    · exact h
    · exact h.modify _ _

/-- Renders that start later are the same. -/
theorem AllAbreast.concat (h : AllAbreast known ids render number renders again)
    (hlt : render < number + renders.length) (watched : Watched host) :
    AllAbreast known ids render number (renders ++ [watched]) (again ++ [watched]) := by
  induction h with
  | nil => exact .other (by simp at hlt; omega) .nil
  | here he hw h ih => exact .here he hw (ih (by omega))
  | other hne h ih => exact .other hne (ih (by simp at hlt; omega))

/-- Two chronicles that differ only in one render, and there are abreast. -/
structure Abreast (known : Text → Tags → Prop) (ids : PendingId → Prop) (render : Nat)
    (chronicle other : Chronicle host) : Prop where
  config : other.config = chronicle.config
  store : other.store = chronicle.store
  journal : other.journal = chronicle.journal
  renders : AllAbreast known ids render 0 chronicle.renders other.renders
  asks : (chronicle.journal.under [render]).AsksOnly ids

variable {plans : List (Plan Text)} {chronicle other : Chronicle host} {fuel : Nat}

theorem Abreast.proceed (h : chronicle.Abreast known ids render other)
    (hs : chronicle.store.cache.Sound)
    (hk : ((chronicle.proceed fuel).journal.under [render]).Knows known) :
    (chronicle.proceed fuel).Abreast known ids render (other.proceed fuel) := by
  obtain ⟨config, store, renders, journal⟩ := chronicle
  obtain ⟨config', store', renders', journal'⟩ := other
  obtain ⟨rfl, rfl, rfl, hrenders, hasks⟩ := h
  simp only [Chronicle.proceed, Journal.under_append] at hk
  obtain ⟨hafter, hsame, hmore⟩ := rounds_abreast fuel hrenders hs hk.right
  obtain ⟨hstore, htold⟩ := Prod.ext_iff.1 hsame
  refine ⟨rfl, hstore, congrArg (journal' ++ ·) htold, hafter, ?_⟩
  simp only [Chronicle.proceed, Journal.under_append]
  exact hasks.append hmore

theorem Abreast.act (h : chronicle.Abreast known ids render other) (hkept : chronicle.Kept plans)
    (hlt : render < plans.length) (action : Action)
    (hk : ((chronicle.act fuel action).journal.under [render]).Knows known) :
    (chronicle.act fuel action).Abreast known ids render (other.act fuel action) := by
  have hs := hkept.store.cache
  have hlength : render < 0 + chronicle.renders.length := by
    rwa [Nat.zero_add, ← hkept.renders.length_eq, List.length_zipIdx]
  obtain ⟨config, store, renders, journal⟩ := chronicle
  obtain ⟨config', store', renders', journal'⟩ := other
  obtain ⟨rfl, rfl, rfl, hrenders, hasks⟩ := h
  cases action with
  | start request =>
    exact Abreast.proceed ⟨rfl, rfl, rfl, hrenders.concat hlength _, hasks⟩ hs hk
  | release id =>
    exact Abreast.proceed ⟨rfl, rfl, rfl, hrenders.foldl_tell _, hasks⟩ hs hk
  | compile source tags =>
    refine ⟨rfl, rfl, rfl, hrenders, fun part id hm => ?_⟩
    obtain ⟨hm, hp⟩ := Journal.mem_under.1 hm
    rcases List.mem_append.1 hm with hm | hm
    · exact hasks part id (Journal.mem_under.2 ⟨hm, hp⟩)
    · cases List.mem_singleton.1 hm
  | setTags | setEscape | clearCache => exact ⟨rfl, rfl, rfl, hrenders, hasks⟩

theorem allAbreast_append {watched other : Watched host} (h : watched.Abreast known ids other)
    (number : Nat) (renders : List (Watched host)) :
    AllAbreast known ids (number + renders.length) number (renders ++ [watched])
      (renders ++ [other]) := by
  induction renders generalizing number with
  | nil => exact .here rfl h .nil
  | cons first renders ih =>
    have hrest := ih (number + 1)
    rw [show number + 1 + renders.length = number + (first :: renders).length by simp; omega] at hrest
    exact .other (by simp) hrest

/-- Two renders with plans that are alike go abreast from their start. -/
theorem Kept.abreast_start (h : chronicle.Kept plans) {request again : Request}
    (halike : (request.plan fuel chronicle.config).Alike host known ids
      (again.plan fuel chronicle.config))
    (hk : ((chronicle.act fuel (.start request)).journal.under [plans.length]).Knows known) :
    (chronicle.act fuel (.start request)).Abreast known ids plans.length
      (chronicle.act fuel (.start again)) := by
  obtain ⟨S, hS⟩ := halike.inTandem
  have hlength : plans.length = 0 + chronicle.renders.length := by
    rw [Nat.zero_add, ← h.renders.length_eq, List.length_zipIdx]
  have hrenders := allAbreast_append (.underway hS .none true) 0 chronicle.renders
  rw [← hlength] at hrenders
  have hasks : (chronicle.journal.under [plans.length]).AsksOnly ids :=
    h.under_eq_nil ▸ Journal.asksOnly_nil
  exact Abreast.proceed ⟨rfl, rfl, rfl, hrenders, hasks⟩ h.store.cache hk

/-- What an action tells is told of the whole run. -/
theorem Kept.knows_act (h : chronicle.Kept plans) (action : Action) (actions : List Action)
    {place : Place}
    (hk : ((chronicle.run fuel (action :: actions)).journal.under place).Knows known) :
    ((chronicle.act fuel action).journal.under place).Knows known := by
  obtain ⟨hact, -⟩ := h.act fuel action
  obtain ⟨-, told, hfollows⟩ := hact.run fuel actions
  have hjournal : (chronicle.run fuel (action :: actions)).journal =
      (chronicle.act fuel action).journal ++ told := hfollows.journal_eq
  rw [hjournal, Journal.under_append] at hk
  exact hk.left

theorem Abreast.run {render : Nat} (h : chronicle.Abreast known ids render other)
    (hkept : chronicle.Kept plans) (hlt : render < plans.length) (actions : List Action)
    (hk : ((chronicle.run fuel actions).journal.under [render]).Knows known) :
    (chronicle.run fuel actions).Abreast known ids render (other.run fuel actions) := by
  induction actions generalizing chronicle other plans with
  | nil => exact h
  | cons action actions ih =>
    obtain ⟨hact, -⟩ := hkept.act fuel action
    refine ih (h.act hkept hlt action (hkept.knows_act action actions hk)) hact ?_ hk
    simp only [List.length_append]
    omega

/-- A run and the same run with another request, whose plan is alike where it is started. -/
theorem abreast_run_new (host : Host) (fuel : Nat) (config : Config) (front back : List Action)
    {request again : Request}
    (halike : ∀ config, (request.plan fuel config).Alike host known ids (again.plan fuel config))
    (hk : (((Chronicle.new host config).run fuel (front ++ .start request :: back)).journal.under
      [(Action.starts config front).length]).Knows known) :
    ((Chronicle.new host config).run fuel (front ++ .start request :: back)).Abreast known ids
      (Action.starts config front).length
      ((Chronicle.new host config).run fuel (front ++ .start again :: back)) := by
  have hkept := Chronicle.kept_run_new host fuel config front
  have hlength : (Action.starts config front).length =
      (Engine.plans fuel (Action.starts config front)).length := by simp [Engine.plans]
  rw [hlength] at hk ⊢
  simp only [Chronicle.run_append] at hk ⊢
  generalize (Chronicle.new host config).run fuel front = chronicle at hkept hk
  obtain ⟨hact, -⟩ := hkept.act fuel (.start request)
  have hstart := hkept.abreast_start (halike _) (hkept.knows_act _ back hk)
  exact hstart.run hact (by simp [Engine.plans, Action.start?]) back hk

end Chronicle

namespace Engine

/-- On behalf of a render a source is compiled with a tag whose path has this first key. -/
def ReadKey (host : Host) (fuel : Nat) (config : Config) (actions : List Action) (render : Nat)
    (key : Text) : Prop :=
  ∃ part source tags ns, (part, .compiles source tags) ∈ journal host fuel config actions ∧
    [render] <:+ part ∧ Template.compile source tags = .ok ns ∧ Node.Mentions ns key

/-- A render whose view is a map without lambdas may have any other map for its view that agrees with
it on the keys that are read on behalf of the render, and nothing changes: not how far any render on
the engine has come, not the store, and not what is done on the way. What the render asks for is found
under these keys. -/
theorem run_unread {fuel : Nat} {config : Config} {front back : List Action} {request : Request}
    {entries others : List (Text × Value)} (hview : request.view = .map entries)
    (free : (Value.map entries).LambdaFree host)
    (hsame : ∀ key, ReadKey host fuel config (front ++ .start request :: back)
      (Action.starts config front).length key → others.lookup key = entries.lookup key) :
    let actions := front ++ .start request :: back
    let again := front ++ .start { request with view := .map others } :: back
    let render := (Action.starts config front).length
    ((new config).run host fuel again).statuses = ((new config).run host fuel actions).statuses ∧
    ((new config).run host fuel again).store = ((new config).run host fuel actions).store ∧
    journal host fuel config again = journal host fuel config actions ∧
    ∀ part id, (part, .asks id) ∈ journal host fuel config actions → [render] <:+ part →
      ∃ key v, ReadKey host fuel config actions render key ∧ entries.lookup key = some v ∧
        Value.Reaches host v (.pending id) := by
  intro actions again render
  let known (source : Text) (tags : Tags) : Prop :=
    ∃ part, (part, .compiles source tags) ∈ journal host fuel config actions ∧ [render] <:+ part
  let ids (id : PendingId) : Prop :=
    ∃ key v, ReadKey host fuel config actions render key ∧ entries.lookup key = some v ∧
      Value.Reaches host v (.pending id)
  have hknown : ∀ source tags ns, known source tags → Template.compile source tags = .ok ns →
      ∀ key, Node.Mentions ns key → Shared host ids entries others key := by
    rintro source tags ns ⟨part, hm, hp⟩ hn key hkey
    have hread : ReadKey host fuel config actions render key :=
      ⟨part, source, tags, ns, hm, hp, hn, hkey⟩
    refine ⟨hsame key hread, fun v hv => ⟨fun called hr => free called ?_, fun id hr => ?_⟩⟩
    · have hget : (Value.map entries).get? key = some v := hv
      exact Value.reaches_of_mem_parts (Value.mem_parts_of_get? hget) hr
    · exact ⟨key, v, hread, hv, hr⟩
  have hk : (((Chronicle.new host config).run fuel actions).journal.under [render]).Knows known :=
    fun part source tags hm => ⟨part, Journal.mem_under.1 hm⟩
  have habreast := Chronicle.abreast_run_new host fuel config front back
    (fun _ => Request.alike_plan hview hknown) hk
  simp only [run_new, journal]
  refine ⟨?_, habreast.store, habreast.journal, fun part id hm hp => ?_⟩
  · simp only [statuses, Chronicle.engine, List.map_map]
    exact habreast.renders.statuses_eq
  · exact habreast.asks part id (Journal.mem_under.2 ⟨hm, hp⟩)

/-- A manual value that becomes a text, and one that fails. -/
def thereAndBroken : Host where
  pending
    | 0 => ⟨.ok (.string ['b']), true⟩
    | _ => ⟨.error (.valueFailed "boom".toList), true⟩
  inline _ _ := .null
  block _ _ _ := .value .null

/-- A partial in a section over the whole view. -/
def wholeShown : Request where
  template := .string "{{#.}}{{>p}}{{/.}}".toList
  view := .map [(['x'], .pending 1), (['y'], .map [(['z'], .pending 0)])]
  partials := .ofList [(['p'], "{{y.z}}".toList)]
  tags := none
  escape := none

theorem eq_of_readKey_wholeShown {key : Text}
    (h : ReadKey thereAndBroken 3 default [.start wholeShown, .release 0] 0 key) : key = ['y'] := by
  have hcompiled : (journal thereAndBroken 3 default [.start wholeShown, .release 0]).compiled =
      [("{{#.}}{{>p}}{{/.}}".toList, default), ("{{y.z}}".toList, default)] := by
    decide +kernel
  have hfirst : Template.compile "{{#.}}{{>p}}{{/.}}".toList default =
      .ok [.block .implicit false [.inclusion ['p'] default ⟨6, 12⟩] (.mk fun _ => "{{>p}}".toList)
        default ⟨0, 18⟩] := by
    cbv
  have hsecond : Template.compile "{{y.z}}".toList default =
      .ok [.interpolation (.keys [['y'], ['z']]) true ⟨0, 7⟩] := by
    cbv
  obtain ⟨part, source, tags, ns, hm, -, hn, n, path, hw, hpath, hkey⟩ := h
  have hm' := Journal.mem_compiled.2 ⟨part, hm⟩
  rw [hcompiled] at hm'
  rcases List.mem_pair.1 hm' with he | he
  · cases he
    cases hfirst.symm.trans hn
    cases hw with
    | here hm =>
      cases List.mem_singleton.1 hm
      cases hpath
      cases hkey
    | inside hm hw =>
      cases List.mem_singleton.1 hm
      cases hw with
      | here hm =>
        cases List.mem_singleton.1 hm
        cases hpath
      | inside hm => simp at hm
  · cases he
    cases hsecond.symm.trans hn
    cases hw with
    | here hm =>
      cases List.mem_singleton.1 hm
      cases hpath
      simpa [KeyPath.first?] using hkey.symm
    | inside hm => simp at hm

/-- Nothing changes with another value in the place of the one that is broken. -/
theorem run_unread_wholeShown :
    let others := [(['y'], Value.map [(['z'], .pending 0)]), (['x'], .list [])]
    let actions : List Action := [.start wholeShown, .release 0]
    let again : List Action := [.start { wholeShown with view := .map others }, .release 0]
    ((new default).run thereAndBroken 3 again).statuses = [.finished (.ok ['b'])] ∧
      journal thereAndBroken 3 default again = journal thereAndBroken 3 default actions ∧
      ∀ part, [0] <:+ part → (part, .asks 1) ∉ journal thereAndBroken 3 default actions := by
  have free : (Value.map [(['x'], .pending 1), (['y'], .map [(['z'], .pending 0)])]).LambdaFree
      thereAndBroken := by
    simp [thereAndBroken]
  obtain ⟨hstatuses, -, hjournal, hasks⟩ := @run_unread thereAndBroken 3 default [] [.release 0]
    wholeShown [(['x'], .pending 1), (['y'], .map [(['z'], .pending 0)])]
    [(['y'], .map [(['z'], .pending 0)]), (['x'], .list [])] rfl free
    (fun key h => by rw [eq_of_readKey_wholeShown h]; rfl)
  refine ⟨hstatuses.trans ?_, hjournal, fun part hp hm => ?_⟩
  · decide +kernel
  · obtain ⟨key, v, hkey, hv, hr⟩ := hasks part 1 hm hp
    obtain rfl := eq_of_readKey_wholeShown hkey
    obtain rfl : Value.map [(['z'], .pending 0)] = v := Option.some.inj hv
    cases hr with
    | entry he hr =>
      cases List.mem_singleton.1 he
      cases hr with
      | yielded hb hr =>
        cases hb
        cases hr

end Engine
end Stencil
