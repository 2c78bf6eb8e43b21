import Stencil.Proofs.Engine.Failure
import Stencil.Proofs.Plan.Acyclic
import Stencil.Proofs.Process.Dwindling

/-!
# Renders come to an end

The plan of a render that has only so much to do is carried out within as many rounds. Such a render
waits only for what it comes for; once all of that is ready it is over. So it is with finite data and
with partials that include each other in no circle.
-/

namespace Stencil

variable {host : Host}

/-- A confined plan is carried out with only so much to do. -/
theorem Plan.Confined.dwindles {α : Type} {ids : PendingId → Prop} {plan : Plan α} {weight : Nat}
    (h : plan.Confined host ids weight) : (plan.watchful host).Dwindles weight := by
  induction plan generalizing weight with
  | done | fail => exact (Process.Watchful.dwindles_act _).mono (Nat.zero_le _)
  | exhausted | callInline | callBlock | inner => exact h.elim
  | await id next ih =>
    obtain ⟨-, rest, hlt, h⟩ := h
    refine Process.Watchful.Dwindles.mono ((Process.Watchful.dwindles_value id).bind ?_)
      (show 1 + rest ≤ weight by omega)
    rintro b ⟨v, hv, hb⟩
    cases hb
    exact ih b (h b hv)
  | compile source tags next ih =>
    refine Process.Watchful.Dwindles.mono ((Process.Watchful.dwindles_act _).bind ?_)
      (show 0 + weight ≤ weight by omega)
    rintro nodes ⟨again, hn, hb⟩
    cases hb
    exact ih nodes (h nodes hn)
  | join count members next ihm ih =>
    obtain ⟨own, rest, hle, hm, h⟩ := h
    refine Process.Watchful.Dwindles.mono
      ((Process.Watchful.Dwindles.join fun i => ihm i (hm i)).bind ?_) hle
    exact fun results hr => ih results (h results (Plan.gives_join_done.1 hr))

namespace Watched

variable {plan : Plan Text} {number weight fuel rounds : Nat}
  {left : (plan.process host).State → Nat} {store : Store} {journal : Journal} {told : List Place}
  {watched : Watched host}

/-- The render is not cut short, and has news in so many rounds at most. -/
inductive Ahead (plan : Plan Text) (weight : Nat) (left : (plan.process host).State → Nat)
    (rounds : Nat) : Watched host → Prop
  | underway {state : Option (plan.process host).State} {news : Bool}
    (few : news = true → state.elim weight left < rounds) :
    Ahead plan weight left rounds (.underway plan state news)
  | finished {outcome : Except Error Text} : Ahead plan weight left rounds (.finished outcome)

theorem Ahead.ne_exhausted (h : watched.Ahead plan weight left rounds) : watched ≠ .exhausted := by
  rintro rfl
  cases h

theorem Ahead.stop (h : watched.Ahead plan weight left 0) : watched.stop = watched := by
  refine if_neg fun hnews => ?_
  cases h with
  | underway few => exact Nat.not_lt_zero _ (few hnews)
  | finished => cases hnews

/-- A render that is not cut short has no more to do than its plan. -/
theorem Kept.ahead (h : Kept plan number store journal told watched)
    (hl : (plan.watchful host).Lowers weight left) (hlt : weight < fuel)
    (hne : watched ≠ .exhausted) : watched.Ahead plan weight left fuel := by
  cases h with
  | fresh => exact .underway fun _ => hlt
  | waiting stands => exact .underway fun _ => (hl.left_le stands).trans_lt hlt
  | finished | failed => exact .finished
  | exhausted => exact absurd rfl hne

theorem Kept.ahead_advance (h : Kept plan number store journal [] watched) (hs : store.Sound host)
    (hl : (plan.watchful host).Lowers weight left)
    (ha : watched.Ahead plan weight left (rounds + 1)) :
    (watched.advance number store).1.Ahead plan weight left rounds := by
  cases ha with
  | finished => exact .finished
  | @underway state news few =>
    cases news with
    | false => exact .underway nofun
    | true =>
      have hrest : ∀ s, state = some s → (plan.watchful host).Rests host [number] s store := by
        rintro s rfl
        cases h with
        | waiting stands seated alert =>
          exact ⟨stands, seated, (plan.watchful host).alert_mono (fun _ _ _ _ h => .inl h) alert⟩
      have hadvance := hl.advance hs hrest
      have hle := Nat.le_of_lt_succ (few rfl)
      simp only [Watched.advance]
      generalize (plan.process host).advance [number] state store = advance at hadvance
      obtain ⟨reached, news, after⟩ := advance
      cases reached with
      | ended => exact .finished
      | exhausted => exact absurd rfl hadvance.bounded
      | waiting s => exact .underway fun hn => (hadvance.lt hn).trans_le hle

/-- Whatever goes down with the plan, below a bound, is enough for so many rounds. -/
def Lasts (fuel rounds : Nat) (plan : Plan Text) (watched : Watched host) : Prop :=
  ∀ weight left, weight < fuel → (plan.watchful host).Lowers weight left →
    watched.Ahead plan weight left rounds

/-- If the plan has less to do than the bound, its render is not cut short. -/
def Spared (fuel : Nat) (plan : Plan Text) (watched : Watched host) : Prop :=
  (∃ weight < fuel, (plan.watchful host).Dwindles weight) → watched ≠ .exhausted

theorem Lasts.spared (h : watched.Lasts fuel rounds plan) : watched.Spared fuel plan := by
  rintro ⟨weight, hlt, left, hl⟩
  exact (h weight left hlt hl).ne_exhausted

theorem Spared.hear (h : watched.Spared fuel plan) (path : List Nat) :
    (watched.hear path).Spared fuel plan := by
  intro hd
  cases watched with
  | underway | finished => nofun
  | exhausted => exact absurd rfl (h hd)

end Watched

namespace Chronicle

variable {plans : List (Plan Text)} {number fuel count : Nat} {store : Store} {journal : Journal}
  {renders : List (Watched host)} {chronicle : Chronicle host}

theorem round_lasts (hs : store.Sound host) (h : AllKept plans number store journal [] renders)
    (hl : List.Forall₂ (fun numbered => Watched.Lasts fuel (count + 1) numbered.1)
      (plans.zipIdx number) renders) :
    List.Forall₂ (fun numbered => Watched.Lasts fuel count numbered.1) (plans.zipIdx number)
      (round number renders store).1 := by
  induction plans generalizing number renders store journal with
  | nil =>
    cases h
    exact .nil
  | cons plan plans ih =>
    cases h with
    | @cons _ watched _ renders hfirst hrest =>
      obtain ⟨hlast, hlasts⟩ := List.forall₂_cons.1 hl
      obtain ⟨hact, -⟩ := hfirst.advance hs
      -- the others are none of the first render
      have hother : ∀ n, number + 1 ≤ n → ∀ part, [n] <:+ part → ¬ [number] <:+ part := by
        intro n hn part hp hp'
        have he : n = number := eq_of_cons_suffix hp hp'
        omega
      refine .cons (fun weight left hlt hlow => ?_)
        (ih hact.sound (AllKept.of_acts hrest hact hother) hlasts)
      exact hfirst.ahead_advance hs hlow (hlast weight left hlt hlow)

/-- As many rounds are enough. -/
theorem rounds_spared (hs : store.Sound host) (h : AllKept plans 0 store journal [] renders)
    (hl : List.Forall₂ (fun numbered => Watched.Lasts fuel count numbered.1) plans.zipIdx renders) :
    List.Forall₂ (fun numbered => Watched.Spared fuel numbered.1) plans.zipIdx
      (rounds count renders store).1 := by
  induction count generalizing renders store journal with
  | zero =>
    refine List.forall₂_map_right_iff.2 (hl.imp fun numbered watched hlast => ?_)
    rintro ⟨weight, hlt, left, hlow⟩
    rw [(hlast weight left hlt hlow).stop]
    exact (hlast weight left hlt hlow).ne_exhausted
  | succ count ih =>
    by_cases hn : renders.any Watched.hasNews = true
    · simp only [rounds, hn, if_true]
      have hround := round_goes hs h
      exact ih hround.acts.sound hround.kept (round_lasts hs h hl)
    · simp only [rounds, hn]
      exact hl.imp fun _ _ hlast => hlast.spared

/-- What holds of all renders holds of the one at an index. -/
theorem exists_render_of_forall₂ {R : Plan Text × Nat → Watched host → Prop}
    (h : List.Forall₂ R plans.zipIdx renders) {index : Nat} {plan : Plan Text}
    (hi : plans[index]? = some plan) :
    ∃ watched, renders[index]? = some watched ∧ R (plan, index) watched := by
  obtain ⟨hlt, rfl⟩ := List.getElem?_eq_some_iff.1 hi
  have hlt' : index < renders.length := by simpa [← h.length_eq] using hlt
  refine ⟨renders[index], List.getElem?_eq_getElem hlt', ?_⟩
  simpa using h.get (i := index) (by simpa using hlt) hlt'

/-- No render is cut short that has less to do than the bound. -/
def AllSpared (fuel : Nat) (plans : List (Plan Text)) (renders : List (Watched host)) : Prop :=
  List.Forall₂ (fun numbered => Watched.Spared fuel numbered.1) plans.zipIdx renders

theorem spared_proceed (hs : chronicle.store.Sound host)
    (h : AllKept plans 0 chronicle.store chronicle.journal [] chronicle.renders)
    (hn : AllSpared fuel plans chronicle.renders) :
    AllSpared fuel plans (chronicle.proceed fuel).renders := by
  refine rounds_spared hs h (List.forall₂_iff_get.2 ⟨h.length_eq, fun index hi hi' => ?_⟩)
  intro weight left hlt hlow
  exact (h.get hi hi').ahead hlow hlt (hn.get hi hi' ⟨weight, hlt, left, hlow⟩)

theorem heeds_spared (fuel : Nat) :
    Heeds (fun _ (numbered : Plan Text × Nat) (watched : Watched host) =>
      watched.Spared fuel numbered.1) Watched.hear :=
  ⟨fun path hn => hn.hear path, fun hn _ => hn⟩

theorem Kept.spared_act (h : chronicle.Kept plans) (hn : AllSpared fuel plans chronicle.renders)
    (action : Action) :
    AllSpared fuel (plans ++ Engine.plans fuel (action.start? chronicle.config).toList)
      (chronicle.act fuel action).renders := by
  have hsame : plans ++ Engine.plans fuel [] = plans := by simp [Engine.plans]
  cases action with
  | start request =>
    refine spared_proceed h.store (h.started _) ?_
    rw [AllSpared, List.zipIdx_append]
    exact List.rel_append hn (.cons (fun _ he => by cases he) .nil)
  | release id =>
    exact hsame.symm ▸ spared_proceed (Store.sound_release h.store id) (h.released id)
      ((heeds_spared fuel).foldl_tell [] hn _)
  | compile | setTags | setEscape | clearCache => exact hsame.symm ▸ hn

/-- A value becomes ready by its release only. -/
theorem Kept.isReady_act (h : chronicle.Kept plans) (fuel : Nat) (action : Action)
    (id : PendingId) :
    (chronicle.act fuel action).store.isReady host id = true ↔
      chronicle.store.isReady host id = true ∨ action = .release id := by
  cases action with
  | start request =>
    have hacts := (rounds_goes fuel h.store (h.started (request.plan fuel chronicle.config))).1.acts
    simp only [reduceCtorEq, or_false]
    exact Bool.eq_iff_iff.1 (congrFun hacts.isReady_eq id)
  | release other =>
    have hacts :=
      (rounds_goes fuel (Store.sound_release h.store other) (h.released other)).1.acts
    rw [Action.release.injEq, eq_comm (a := other), ← Store.isReady_release]
    exact Bool.eq_iff_iff.1 (congrFun hacts.isReady_eq id)
  | compile | setTags | setEscape | clearCache =>
    simp only [reduceCtorEq, or_false]
    rfl

theorem Kept.spared_run (h : chronicle.Kept plans) (hn : AllSpared fuel plans chronicle.renders)
    (actions : List Action) :
    AllSpared fuel (plans ++ Engine.plans fuel (Action.starts chronicle.config actions))
        (chronicle.run fuel actions).renders ∧
      ∀ id, (chronicle.run fuel actions).store.isReady host id = true ↔
        chronicle.store.isReady host id = true ∨ .release id ∈ actions := by
  induction actions generalizing chronicle plans with
  | nil => exact ⟨by simpa [Chronicle.run, Engine.plans, Action.starts] using hn, by simp [Chronicle.run]⟩
  | cons action actions ih =>
    obtain ⟨hact, -⟩ := h.act fuel action
    obtain ⟨hspared, hready⟩ := ih hact (h.spared_act hn action)
    have hcons : chronicle.run fuel (action :: actions) =
      (chronicle.act fuel action).run fuel actions := rfl
    refine ⟨by simpa [hcons, Engine.plans, Action.starts, config_act] using hspared, fun id => ?_⟩
    rw [hcons, hready, h.isReady_act, List.mem_cons, or_assoc, eq_comm (a := action)]

end Chronicle

namespace Watched

variable {plan : Plan Text} {number : Nat} {store : Store} {journal : Journal}
  {watched : Watched host}

/-- A render that is not cut short is over once all that it came for is ready. -/
theorem Kept.exists_outcome (h : Kept plan number store journal [] watched)
    (hquiet : watched.hasNews = false) (hne : watched ≠ .exhausted)
    (hready : ∀ part id, [number] <:+ part → (part, .asks id) ∈ journal →
      store.isReady host id = true) :
    ∃ outcome, watched = .finished outcome := by
  cases h with
  | fresh => cases hquiet
  | finished | failed => exact ⟨_, rfl⟩
  | exhausted => exact absurd rfl hne
  | @waiting state news stands seated alert asleep keeps =>
    obtain rfl : news = false := hquiet
    have hasleep := (asleep rfl).1
    obtain ⟨id, n, part, hw⟩ := (plan.watchful host).waits stands hasleep
    have hasks := Journal.mem_under.1 ((keeps.waits id n part hw).resolve_left nofun)
    have hnot := hasleep.not_ready id n part hw
    rw [hready part id hasks.2 hasks.1] at hnot
    cases hnot

end Watched

namespace Engine

/-- A render is over, with a text or an error, when its data are finite and call no lambda, when its
partials include each other in no circle, and when the manual values in its data are released, be it
before or after its start. How many rounds and levels of nested work that takes is known beforehand,
whatever else there is on the engine. -/
theorem run_terminates {request : Request} {defaults : Config}
    (hfinite : {name | (request.partials name).isSome}.Finite)
    (hnames : ∀ name other,
      request.partials.Includes (request.setting defaults).tags name other → '\n' ∉ other)
    (hacyclic : ∀ name,
      ¬ Relation.TransGen (request.partials.Includes (request.setting defaults).tags) name name)
    (hview : request.view.IsFinite host) (free : request.view.LambdaFree host) :
    ∃ bound, ∀ fuel, bound ≤ fuel → ∀ (config : Config) (actions : List Action) (render : Nat),
      (Action.starts config actions)[render]? = some (request, defaults) →
      (∀ id, Value.Reaches host request.view (.pending id) → (host.pending id).manual = true →
        .release id ∈ actions) →
      ∃ outcome, ((new config).run host fuel actions).statuses[render]? =
        some (.finished outcome) := by
  obtain ⟨bound, hconfined⟩ :=
    Request.exists_confined_of_acyclic hfinite hnames hacyclic hview free
  refine ⟨bound + 1, fun fuel hle config actions render hstart hreleased => ?_⟩
  have hplan := hconfined fuel (by omega)
  have hkept := Chronicle.kept_run_new host fuel config actions
  have hnone : Chronicle.AllSpared fuel [] (Chronicle.new host config).renders := .nil
  obtain ⟨hspared, hready⟩ := (Chronicle.kept_new host config).spared_run hnone actions
  rw [run_new]
  generalize (Chronicle.new host config).run fuel actions = chronicle at *
  have hi : (plans fuel (Action.starts config actions))[render]? =
      some (request.plan fuel defaults) := by
    simp [plans, hstart]
  obtain ⟨watched, hw, hrender⟩ := Chronicle.exists_render_of_forall₂ hkept.renders hi
  obtain ⟨_, hw', hspares⟩ := Chronicle.exists_render_of_forall₂ hspared hi
  obtain rfl := Option.some.inj (hw.symm.trans hw')
  -- whatever has been asked for on its behalf is in its data, and so it has been released
  have hcame : ∀ part id, [render] <:+ part → (part, .asks id) ∈ chronicle.journal →
      chronicle.store.isReady host id = true := by
    intro part id hp hasks
    obtain ⟨numbered, hn, hp', hplans⟩ := hkept.asked part id hasks
    obtain rfl : numbered.2 = render := eq_of_cons_suffix hp' hp
    have hsame : numbered.1 = request.plan fuel defaults := by
      simpa [hi] using (List.mem_zipIdx_iff_getElem?.1 hn).symm
    cases hmanual : (host.pending id).manual with
    | false => simp [Store.isReady, hmanual]
    | true => exact (hready id).2 (.inr (hreleased id (hplan.of_asks (hsame ▸ hplans)) hmanual))
  obtain ⟨outcome, rfl⟩ := hrender.exists_outcome (hkept.quiet watched (List.mem_of_getElem? hw))
    (hspares ⟨bound, by omega, hplan.dwindles⟩) hcame
  exact ⟨outcome, getElem?_statuses.2 ⟨_, hw, rfl⟩⟩

/-- A manual value that becomes another one, and that a text. -/
def oneByOne : Host where
  pending
    | 0 => ⟨.ok (.pending 1), true⟩
    | _ => ⟨.ok (.string ['b']), false⟩
  inline _ _ := .null
  block _ _ _ := .value .null

/-- A partial in a section of a partial, each of them indented. -/
def innerShown : Request where
  template := .string " {{>p}}\n".toList
  view := .map [(['s'], .list [.bool true, .bool true]), (['y'], .pending 0)]
  partials := .ofList [(['p'], "{{#s}}\n {{>q}}\n{{/s}}".toList), (['q'], "{{y}}\n".toList)]
  tags := none
  escape := none

theorem includes_innerShown {name other : Text}
    (h : innerShown.partials.Includes (innerShown.setting default).tags name other) :
    name = ['p'] ∧ other = ['q'] := by
  have hfirst : Template.compile "{{#s}}\n {{>q}}\n{{/s}}".toList (innerShown.setting default).tags =
      .ok [.block (.parse ['s']) false [.inclusion ['q'] (.standalone [' ']) ⟨8, 14⟩]
        (.mk fun _ => "\n {{>q}}\n".toList) default ⟨0, 21⟩] := by
    cbv
  have hsecond : Template.compile "{{y}}\n".toList (innerShown.setting default).tags =
      .ok [.interpolation (.keys [['y']]) true ⟨0, 5⟩, .text ['\n']] := by
    cbv
  obtain ⟨source, nodes, indent, span, hs, hc, hw⟩ := h
  have hm : (name, source) ∈ [(['p'], "{{#s}}\n {{>q}}\n{{/s}}".toList), (['q'], "{{y}}\n".toList)] :=
    Partials.mem_of_ofList hs
  rcases List.mem_pair.1 hm with he | he
  · cases he
    cases hfirst.symm.trans hc
    refine ⟨rfl, ?_⟩
    cases hw with
    | here hm => simp at hm
    | inside hm hw =>
      cases List.mem_singleton.1 hm
      cases hw with
      | here hm =>
        cases List.mem_singleton.1 hm
        rfl
      | inside hm => simp at hm
  · cases he
    cases hsecond.symm.trans hc
    cases hw with
    | here hm | inside hm => simp at hm

/-- Whatever the bound, as long as it is large enough, the render is over once the manual value has
been released. -/
theorem run_terminates_innerShown :
    ∃ bound, ∀ fuel, bound ≤ fuel → ∃ outcome,
      ((new default).run oneByOne fuel [.start innerShown, .release 0]).statuses[0]? =
        some (.finished outcome) := by
  have hfinite : {name | (innerShown.partials name).isSome}.Finite := Partials.finite_ofList _
  have hnames : ∀ name other, innerShown.partials.Includes (innerShown.setting default).tags name
      other → '\n' ∉ other := by
    intro name other h
    obtain ⟨-, rfl⟩ := includes_innerShown h
    decide
  have hacyclic : ∀ name, ¬ Relation.TransGen
      (innerShown.partials.Includes (innerShown.setting default).tags) name name := by
    intro name h
    obtain ⟨_, hfirst, -⟩ := Relation.TransGen.head'_iff.1 h
    obtain ⟨_, -, hlast⟩ := Relation.TransGen.tail'_iff.1 h
    have hsame := (includes_innerShown hfirst).1.symm.trans (includes_innerShown hlast).2
    exact absurd hsame (by decide)
  have hview : innerShown.view.IsFinite oneByOne := by
    simp [innerShown, oneByOne]
  have free : innerShown.view.LambdaFree oneByOne := by
    simp [innerShown, oneByOne]
  obtain ⟨bound, hover⟩ := run_terminates hfinite hnames hacyclic hview free
  refine ⟨bound, fun fuel hle => hover fuel hle default _ 0 rfl fun id _ hmanual => ?_⟩
  match id with
  | 0 => simp
  | _ + 1 => cases hmanual

end Engine
end Stencil
