import Mathlib
import Stencil.Proofs.Direct.Chances
import Stencil.Proofs.Direct.Engine
import Stencil.Proofs.Engine.Confluence
import Stencil.Proofs.Engine.Isolation
import Stencil.Proofs.Plan.Inlined

/-!
# Renders with a partial in its own place

A render of a source with a tag that includes a partial, and one with the text of the partial in the
place of the tag, end with the same texts, where the text of the partial fits there and no lambda can
be come to from the view.
-/

namespace Stencil

variable {host : Host}

/-- The plan of a render sheds to itself under a smaller bound. -/
theorem Request.sheds_plan_self {request : Request} (free : request.view.LambdaFree host)
    {fuel more : Nat} (hle : fuel ≤ more) (config : Config) :
    Plan.Sheds host Eq (request.plan more config) (request.plan fuel config) :=
  Request.sheds_plan (n := 0) ⟨Value.wraps_self host 0 request.view, free⟩ hle config

/-- A render may come to one text only, under whatever bounds. -/
theorem Request.eq_of_gives {request : Request} (free : request.view.LambdaFree host)
    {fuel more : Nat} {config : Config} {text other : Text}
    (h : (request.plan fuel config).Gives host text)
    (ho : (request.plan more config).Gives host other) : text = other := by
  -- with all values ready a plan has no more than one result
  have hall : ∀ id : PendingId, (fun _ => true : PendingId → Bool) id = true := fun _ => rfl
  have hsheds := sheds_plan_self free (Nat.le_max_left fuel more) config
  have hsheds' := sheds_plan_self free (Nat.le_max_right fuel more) config
  obtain ⟨_, hresult, rfl⟩ := hsheds.exists_result?_of_gives hall h
  obtain ⟨_, hother, rfl⟩ := hsheds'.exists_result?_of_gives hall ho
  exact Option.some.inj (hresult.symm.trans hother)

theorem Status.ofOutcome_eq_ok {outcome : Except Stop Text} {text : Text} :
    Status.ofOutcome outcome = .finished (.ok text) ↔ outcome = .ok text := by
  rcases outcome with (_ | _) | _ <;> simp [ofOutcome]

namespace Engine

/-- Of a run that releases all that is manual, a render that ends so. -/
structure Ends (host : Host) (fuel : Nat) (config : Config) (actions : List Action) (render : Nat)
    (request : Request) (defaults : Config) (status : Status) : Prop where
  start : (Action.starts config actions)[render]? = some (request, defaults)
  released : ∀ id, (host.pending id).manual = true → .release id ∈ actions
  ended : ((new config).run host fuel actions).statuses[render]? = some status
  /-- Its nested work has not reached the bound. -/
  within : status ≠ .exhausted

variable {engine : Engine} {fuel : Nat} {config defaults : Config} {actions : List Action}
  {render : Nat} {request : Request} {status : Status} {text : Text}

theorem Still.statuses_start_iff (h : engine.Still) (hm : ∀ id, (host.pending id).manual = false)
    (free : request.view.LambdaFree host) :
    (∃ fuel, (engine.start host fuel request).statuses =
        engine.statuses ++ [.finished (.ok text)]) ↔
      ∃ fuel, (request.plan fuel engine.config).Gives host text := by
  constructor
  · rintro ⟨fuel, hstatuses⟩
    cases fuel with
    | zero =>
      have hlast := congrArg List.getLast? hstatuses
      simp [Engine.start, proceed, rounds, statuses, Rendering.stop, Rendering.hasNews,
        Rendering.status] at hlast
    | succ fuel =>
      rw [(h.start hm fuel request).1, ← Request.direct_plan] at hstatuses
      obtain ⟨-, hlast⟩ := List.append_inj' hstatuses rfl
      exact ⟨fuel + 1, Plan.gives_of_outcome (Status.ofOutcome_eq_ok.1 (List.singleton_inj.1 hlast))⟩
  · rintro ⟨fuel, hg⟩
    have hsheds := Request.sheds_plan_self free (Nat.le_succ fuel) engine.config
    obtain ⟨_, houtcome, rfl⟩ := hsheds.exists_outcome hg engine.store.ledger
    rw [Request.direct_plan] at houtcome
    exact ⟨fuel + 1, by rw [(h.start hm fuel request).1, houtcome]; rfl⟩

/-- What the statuses of an engine tell of the plans of its renders. -/
theorem Sound.exists_tells {hp : host.Pure} {plans : List (Plan Text)} (h : engine.Sound hp plans)
    {n : Nat} {plan : Plan Text} (hn : plans[n]? = some plan) :
    ∃ status, engine.statuses[n]? = some status ∧
      status.Tells host plan (engine.store.isReady host) (· ∈ engine.store.begun) := by
  obtain ⟨hlt, hget⟩ := List.getElem?_eq_some_iff.1 hn
  have hlength := h.renders.length_eq
  rw [List.length_zipIdx] at hlength
  have hlt' : n < engine.renders.length := hlength ▸ hlt
  have hzip : n < (plans.zipIdx 0).length := by simpa using hlt
  have hrender := (List.forall₂_iff_get.1 h.renders).2 n hzip hlt'
  simp only [List.get_eq_getElem, List.getElem_zipIdx, Nat.zero_add, hget] at hrender
  exact ⟨engine.renders[n].status, by simp [statuses, hlt'],
    hrender.tells (h.quiet _ (List.getElem_mem hlt'))⟩

theorem Ends.isReady (h : Ends host fuel config actions render request defaults status)
    (id : PendingId) : Action.ready host actions id = true := by
  rw [Action.ready_iff]
  cases hmanual : (host.pending id).manual with
  | false => exact .inl rfl
  | true => exact .inr (h.released id hmanual)

/-- A render that has ended is over, and how it is over tells the results of its plan. -/
theorem Ends.exists_outcome (h : Ends host fuel config actions render request defaults status)
    (hp : host.Pure) : ∃ outcome, status = .finished outcome ∧ ∃ late,
      status.Stands host none (request.plan fuel defaults) (Action.ready host actions) late := by
  obtain ⟨hsound, hready⟩ := sound_run_new hp fuel config actions
  have hplan : (plans fuel (Action.starts config actions))[render]? =
      some (request.plan fuel defaults) := by
    simp [plans, h.start]
  have hnew : AllKeep hp none (fun _ => False) [] 0 (new config).store (new config).renders := .nil
  obtain ⟨late, hkeep⟩ := AllKeep.run (sound_new hp config) hnew fuel actions
  obtain ⟨found, hfound, hstands⟩ := AllKeep.stands hsound hkeep hplan
  obtain ⟨told, htold, htells⟩ := hsound.exists_tells hplan
  rw [Option.some.inj (hfound.symm.trans h.ended), hready] at hstands
  rw [Option.some.inj (htold.symm.trans h.ended), hready] at htells
  cases status with
  | finished outcome => exact ⟨outcome, rfl, _, hstands⟩
  | exhausted => exact absurd rfl h.within
  | waiting =>
    obtain ⟨id, hid⟩ := htells.1
    rw [h.isReady] at hid
    cases hid

/-- A render ends with a text just when its plan may come to it. -/
theorem Ends.iff_gives (h : Ends host fuel config actions render request defaults status)
    (hp : host.Pure) (free : request.view.LambdaFree host) :
    status = .finished (.ok text) ↔ ∃ fuel, (request.plan fuel defaults).Gives host text := by
  obtain ⟨outcome, rfl, late, hstands⟩ := h.exists_outcome hp
  have hready : ∀ id, (host.pending id).manual = false → Action.ready host actions id = true :=
    fun id _ => h.isReady id
  constructor
  · rintro hs
    cases hs
    exact ⟨fuel, Plan.gives_of_result? hstands⟩
  · rintro ⟨n, hg⟩
    -- under a bound above both the plan has this result, and what the render has met under its own
    have hresult := (Request.sheds_plan_self free (Nat.le_max_left n fuel)
      defaults).exists_result?_of_gives h.isReady hg
    obtain ⟨_, hresult, rfl⟩ := hresult
    have hsheds := Request.sheds_plan_self free (Nat.le_max_right n fuel) defaults
    cases outcome with
    | ok other =>
      obtain ⟨_, hother, rfl⟩ := hsheds.exists_result? hready hstands
      rw [hresult] at hother
      cases hother
      rfl
    | error error =>
      have hnone := Plan.result?_of_isSome_failure? (hsheds.isSome_failure? hready hstands.2.1)
      rw [hresult] at hnone
      cases hnone

/-- A render of the source with the tag and one of the source with the text of the partial in its
place end with the same texts: on an engine with any past when no value is manual, whatever the bound
that either needs, and in runs of any actions that release all that is manual. -/
theorem run_inlined (host : Host) {request : Request} {defaults : Config}
    {front raw back part : Text} {placed : PlacedTag} (free : request.view.LambdaFree host)
    (hs : request.template = .string (front ++ (raw ++ back)))
    (fits : Template.Fits (request.setting defaults).tags front raw back part placed)
    (seen : Template.Seen (request.setting defaults).tags part back)
    (hpart : (request.setting defaults).partials placed.tag.name = some part) (text : Text) :
    let inlined : Request := { request with template := .string (front ++ (part ++ back)) }
    (∀ config earlier actions,
      let engine := (new config).run host earlier actions
      engine.config = defaults → (∀ id, (host.pending id).manual = false) →
      ((∃ fuel, (engine.start host fuel request).statuses =
          engine.statuses ++ [.finished (.ok text)]) ↔
        ∃ fuel, (engine.start host fuel inlined).statuses =
          engine.statuses ++ [.finished (.ok text)])) ∧
    (host.Pure → ∀ fuel config actions render first more other others again second,
      Ends host fuel config actions render request defaults first →
      Ends host more other others again inlined defaults second →
      (first = .finished (.ok text) ↔ second = .finished (.ok text))) := by
  intro inlined
  have hgives := Request.gives_inlined (t := text) free fits seen hpart hs
  refine ⟨?_, ?_⟩
  · rintro config earlier actions engine rfl hm
    have hstill : engine.Still := (still_new config).run hm earlier actions
    rw [hstill.statuses_start_iff hm free, hgives]
    exact (hstill.statuses_start_iff hm (show inlined.view.LambdaFree host from free)).symm
  · intro hp fuel config actions render first more other others again second hfirst hsecond
    rw [hfirst.iff_gives hp free, hgives]
    exact (hsecond.iff_gives hp (show inlined.view.LambdaFree host from free)).symm

/-- A value that is there. -/
def oneThere : Host where
  pending _ := ⟨.ok (.string ['b']), false⟩
  inline _ _ := .null
  block _ _ _ := .value .null

def itemFront : Text :=
  "{{#s}}- ".toList

def itemBack : Text :=
  ";{{y}}\n{{/s}}".toList

def itemPart : Text :=
  "({{y}}{{!c}}".toList

/-- A partial within the lines of a list. -/
def itemsShown : Request where
  template := .string (itemFront ++ ("{{>p}}".toList ++ itemBack))
  view := .map [(['s'], .list [.map [(['y'], .string ['a'])], .map [(['y'], .pending 0)]])]
  partials := .ofList [(['p'], itemPart)]
  tags := none
  escape := none

/-- The tag of the partial. -/
def itemTag : PlacedTag :=
  ⟨.parse ">p".toList, ⟨8, 14⟩, default⟩

theorem fits_itemTag :
    Template.Fits default itemFront "{{>p}}".toList itemBack itemPart itemTag := by
  have hplaced : Template.placed (itemFront ++ ("{{>p}}".toList ++ itemBack)) default =
      [⟨.parse "#s".toList, ⟨0, 6⟩, default⟩, itemTag, ⟨.parse "y".toList, ⟨15, 20⟩, default⟩,
        ⟨.parse "/s".toList, ⟨21, 27⟩, default⟩] := by
    cbv
  have hpart : Template.placed itemPart default =
      [⟨.parse "y".toList, ⟨1, 6⟩, default⟩, ⟨.parse "!c".toList, ⟨6, 12⟩, default⟩] := by
    cbv
  have hcompile : Template.compile itemPart default =
      .ok [.text ['('], .interpolation (.keys [['y']]) true ⟨1, 6⟩, .comment ['c']] := by
    cbv
  refine ⟨?_, rfl, rfl, rfl, by decide, ?_, ⟨_, hcompile⟩, by decide, ?_, by decide, by decide⟩
  · rw [hplaced]
    simp
  · have honly : ∀ later ∈ Template.placed (itemFront ++ ("{{>p}}".toList ++ itemBack)) default,
        later.tag.sigil = .inclusion → later = itemTag := by
      rw [hplaced]
      decide
    intro later hlater hsigil hshares
    obtain rfl := honly later hlater hsigil
    exact absurd hshares.1 (by decide)
  · rw [hpart]
    decide

theorem seen_itemPart : Template.Seen default itemPart itemBack := by
  have hpart : Template.placed itemPart default =
      [⟨.parse "y".toList, ⟨1, 6⟩, default⟩, ⟨.parse "!c".toList, ⟨6, 12⟩, default⟩] := by
    cbv
  refine ⟨[], '(', "{{y}}{{!c}}".toList, rfl, ?_, by decide, by decide, by simp⟩
  rw [hpart]
  decide

/-- Both sources give the items of the list in their brackets. -/
theorem run_inlined_itemsShown :
    let inlined : Request := { itemsShown with template := .string (itemFront ++ (itemPart ++ itemBack)) }
    let text := "- (a;a\n- (b;b\n".toList
    ((∃ fuel, ((new default).start oneThere fuel itemsShown).statuses = [.finished (.ok text)]) ∧
      ∃ fuel, ((new default).start oneThere fuel inlined).statuses = [.finished (.ok text)]) ∧
    Ends oneThere 4 default [.start itemsShown] 0 itemsShown default (.finished (.ok text)) ∧
    Ends oneThere 4 default [.start inlined] 0 inlined default (.finished (.ok text)) := by
  intro inlined text
  have free : itemsShown.view.LambdaFree oneThere := by simp [itemsShown, oneThere]
  have hpure : oneThere.Pure := ⟨fun _ _ _ => rfl, fun _ _ _ _ => rfl⟩
  have hpart : (itemsShown.setting default).partials itemTag.tag.name = some itemPart := by cbv
  obtain ⟨hstarts, hruns⟩ :=
    @run_inlined oneThere itemsShown default _ _ _ _ _ free rfl fits_itemTag seen_itemPart hpart text
  have hshown : ((new default).start oneThere 4 itemsShown).statuses = [.finished (.ok text)] := by
    decide +kernel
  have hfirst : Ends oneThere 4 default [.start itemsShown] 0 itemsShown default
      (.finished (.ok text)) := ⟨rfl, by simp [oneThere], by decide +kernel, by simp⟩
  obtain ⟨second, hs⟩ : ∃ second,
      ((new default).run oneThere 4 [.start inlined]).statuses[0]? = some second :=
    Option.isSome_iff_exists.1 (by decide +kernel)
  have within : second ≠ .exhausted := by
    rintro rfl
    exact absurd hs (by decide +kernel)
  have hsecond : Ends oneThere 4 default [.start inlined] 0 inlined default second :=
    ⟨rfl, by simp [oneThere], hs, within⟩
  refine ⟨⟨⟨4, hshown⟩, ?_⟩, hfirst, ?_⟩
  · exact (hstarts default 0 [] rfl (fun _ => rfl)).1 ⟨4, hshown⟩
  · obtain rfl := (hruns hpure _ _ _ _ _ _ _ _ _ _ hfirst hsecond).1 rfl
    exact hsecond

/-- A partial of a carriage return, before the line feed that ends the line of its tag. -/
def returnShown : Request where
  template := .string ("{{#s}}".toList ++ ("{{>p}}".toList ++ "\n{{/s}}".toList))
  view := .map [(['s'], .bool true)]
  partials := .ofList [(['p'], ['\r'])]
  tags := none
  escape := none

/-- The tag of the carriage return. -/
def returnTag : PlacedTag :=
  ⟨.parse ">p".toList, ⟨6, 12⟩, default⟩

theorem fits_returnTag : Template.Fits default "{{#s}}".toList "{{>p}}".toList "\n{{/s}}".toList
    ['\r'] returnTag := by
  have hplaced : Template.placed
      ("{{#s}}".toList ++ ("{{>p}}".toList ++ "\n{{/s}}".toList)) default =
      [⟨.parse "#s".toList, ⟨0, 6⟩, default⟩, returnTag, ⟨.parse "/s".toList, ⟨13, 19⟩, default⟩] := by
    cbv
  have hpart : Template.placed ['\r'] default = [] := by
    cbv
  have hcompile : Template.compile ['\r'] default = .ok [.text ['\r']] := by
    cbv
  refine ⟨?_, rfl, rfl, rfl, by decide, ?_, ⟨_, hcompile⟩, by decide, ?_, by decide, by decide⟩
  · rw [hplaced]
    simp
  · have honly : ∀ later ∈ Template.placed
          ("{{#s}}".toList ++ ("{{>p}}".toList ++ "\n{{/s}}".toList)) default,
        later.tag.sigil = .inclusion → later = returnTag := by
      rw [hplaced]
      decide
    intro later hlater hsigil hshares
    obtain rfl := honly later hlater hsigil
    exact absurd hshares.1 (by decide)
  · rw [hpart]
    simp

/-- The carriage return of the partial goes before the line feed after the tag; in the place of the
tag it is part of the line end, and the line of the opening tag is left out with it. -/
theorem lost_line_returnShown :
    let back := "\n{{/s}}".toList
    let inlined : Request := { returnShown with template := .string ("{{#s}}".toList ++ (['\r'] ++ back)) }
    let text := "\r\n".toList
    Template.Fits default "{{#s}}".toList "{{>p}}".toList back ['\r'] returnTag ∧
    ¬ Covers ((Template.placed ['\r'] default).map PlacedTag.span) 0 ∧
    (returnShown.setting default).partials returnTag.tag.name = some ['\r'] ∧
    returnShown.view.LambdaFree oneThere ∧
    (∃ fuel, ((new default).start oneThere fuel returnShown).statuses = [.finished (.ok text)]) ∧
    ¬ ∃ fuel, ((new default).start oneThere fuel inlined).statuses = [.finished (.ok text)] := by
  intro back inlined text
  have hpart : Template.placed ['\r'] default = [] := by
    cbv
  have free : inlined.view.LambdaFree oneThere := by simp [inlined, returnShown]
  have hempty : (inlined.plan 3 default).Gives oneThere [] := by
    have hresult : (inlined.plan 3 default).result? oneThere (fun _ => true) = some [] := by
      decide +kernel
    exact Plan.gives_of_result? hresult
  refine ⟨fits_returnTag, ?_, by cbv, free, ⟨3, by decide +kernel⟩, ?_⟩
  · rw [hpart]
    simp [Covers]
  · intro htext
    have hiff := @Still.statuses_start_iff oneThere _ _ text (still_new default) (fun _ => rfl) free
    obtain ⟨fuel, hg⟩ := hiff.1 htext
    exact absurd (Request.eq_of_gives free hempty hg) (by decide)

end Engine
end Stencil
