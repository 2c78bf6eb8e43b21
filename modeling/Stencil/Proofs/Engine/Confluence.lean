import Mathlib
import Stencil.Proofs.Engine.Sound
import Stencil.Proofs.Plan.Unfailing

/-!
# Confluence

What a run comes to does not depend on when its pending values are released. Two runs on new engines
that start the same renders and release the same manual values, in whatever order and between
whatever starts, leave the same behind: each status is told by the prospects of a plan, and these
know nothing of an order.
-/

namespace Stencil

variable {host : Host} {hp : host.Pure} {plan : Plan Text}

/-- What a status says about the plan of a render that can go no further, when just these values are
ready and those have been begun. -/
def Status.Tells (host : Host) (plan : Plan Text) (ready : PendingId → Bool)
    (begun : PendingId → Prop) : Status → Prop
  | .waiting =>
    (∃ id, ready id = false) ∧ plan.result? host ready = none ∧ (∀ error, plan ≠ .fail error) ∧
      ((∀ error, ¬ plan.Faults host ready error) →
        ∀ id, plan.Begins host ready id → begun id)
  | .finished (.ok text) =>
    plan.result? host ready = some text ∧ ∀ id, plan.Begins host ready id → begun id
  | .finished (.error error) => plan.Faults host ready error
  | .exhausted => True

theorem Rendering.Sound.tells {number : Nat} {store : Store} {rendering : Rendering}
    (h : rendering.Sound hp plan number store) (hquiet : rendering.hasNews = false) :
    rendering.status.Tells host plan (store.isReady host) (· ∈ store.begun) := by
  cases h with
  | fresh => cases hquiet
  | @waiting state news rests asleep =>
    have hasleep := asleep hquiet
    obtain ⟨⟨id, n, part, hw⟩, hnone, hbegun⟩ := (plan.lawful hp).blocked rests.stands hasleep
    refine ⟨⟨id, hasleep.not_ready id n part hw⟩, hnone, ?_, hbegun⟩
    rintro error rfl
    exact Empty.elim state
  | finished result begun => exact ⟨result, begun⟩
  | failed faults => exact faults
  | exhausted => trivial

namespace Status

variable {ready : PendingId → Bool} {begun₁ begun₂ : PendingId → Prop} {first second : Status}

/-- A render that meets no faults but its own can have just one status. -/
theorem Tells.unique (h₁ : first.Tells host plan ready begun₁)
    (h₂ : second.Tells host plan ready begun₂) (hne₁ : first ≠ .exhausted)
    (hne₂ : second ≠ .exhausted)
    (hf : (∀ error, ¬ plan.Faults host ready error) ∨ ∃ error, plan = .fail error) :
    first = second := by
  rcases hf with hf | ⟨error, rfl⟩
  · match first, second with
    | .exhausted, _ => exact absurd rfl hne₁
    | _, .exhausted => exact absurd rfl hne₂
    | .finished (.error error), _ => exact absurd h₁ (hf error)
    | _, .finished (.error error) => exact absurd h₂ (hf error)
    | .waiting, .waiting => rfl
    | .waiting, .finished (.ok text) =>
      have hc := h₁.2.1.symm.trans h₂.1
      cases hc
    | .finished (.ok text), .waiting =>
      have hc := h₁.1.symm.trans h₂.2.1
      cases hc
    | .finished (.ok text), .finished (.ok other) =>
      have hc := h₁.1.symm.trans h₂.1
      cases hc
      rfl
  · have hfinished : ∀ {status : Status} {begun : PendingId → Prop}, status ≠ .exhausted →
        status.Tells host (.fail error) ready begun → status = .finished (.error error) := by
      intro status begun hne h
      match status with
      | .exhausted => exact absurd rfl hne
      | .waiting => exact absurd rfl (h.2.2.1 error)
      | .finished (.ok text) => cases h.1
      | .finished (.error other) => exact congrArg (Status.finished ∘ Except.error) h
    rw [hfinished hne₁ h₁, hfinished hne₂ h₂]

/-- When everything is ready a render is over, with a text if and only if it meets no fault. -/
theorem Tells.agree (h₁ : first.Tells host plan ready begun₁)
    (h₂ : second.Tells host plan ready begun₂) (hne₁ : first ≠ .exhausted)
    (hne₂ : second ≠ .exhausted) (hr : ∀ id, ready id = true) :
    ∃ outcome₁ outcome₂, first = .finished outcome₁ ∧ second = .finished outcome₂ ∧
      outcome₁.toOption = outcome₂.toOption := by
  match first, second with
  | .exhausted, _ => exact absurd rfl hne₁
  | _, .exhausted => exact absurd rfl hne₂
  | .waiting, _ =>
    obtain ⟨id, hid⟩ := h₁.1
    simp [hr id] at hid
  | _, .waiting =>
    obtain ⟨id, hid⟩ := h₂.1
    simp [hr id] at hid
  | .finished (.error _), .finished (.error _) => exact ⟨_, _, rfl, rfl, rfl⟩
  | .finished (.ok _), .finished (.error error) =>
    exact absurd h₂ (Plan.not_faults_of_result? h₁.1 error)
  | .finished (.error error), .finished (.ok _) =>
    exact absurd h₁ (Plan.not_faults_of_result? h₂.1 error)
  | .finished (.ok text), .finished (.ok other) =>
    have hc := h₁.1.symm.trans h₂.1
    cases hc
    exact ⟨_, _, rfl, rfl, rfl⟩

/-- What the plan begins has been begun, unless it meets a fault. -/
theorem Tells.begun (h : first.Tells host plan ready begun₁) (hne : first ≠ .exhausted)
    (hf : (∀ error, ¬ plan.Faults host ready error) ∨ ∃ error, plan = .fail error)
    (id : PendingId) (hb : plan.Begins host ready id) : begun₁ id := by
  rcases hf with hf | ⟨error, rfl⟩
  · match first with
    | .exhausted => exact absurd rfl hne
    | .waiting => exact h.2.2.2 hf id hb
    | .finished (.ok text) => exact h.2 id hb
    | .finished (.error error) => exact absurd h (hf error)
  · exact hb.elim

end Status

/-- A render either fails at once or not of its own accord. -/
theorem Request.unfailing_or_fail (fuel : Nat) (request : Request) (config : Config) :
    (request.plan fuel config).Unfailing ∨ ∃ error, request.plan fuel config = .fail error := by
  cases h : request.template with
  | string source => exact .inl (Request.unfailing_plan h fuel config)
  | _ => exact .inr ⟨.templateKind request.template.kind, by simp only [Request.plan, h]⟩

namespace Engine

/-- Two runs do the same work: they start the same renders with the same defaults in force, and
release the same manual values. -/
structure SameWork (host : Host) (config₁ : Config) (actions₁ : List Action) (config₂ : Config)
    (actions₂ : List Action) : Prop where
  starts : Action.starts config₁ actions₁ = Action.starts config₂ actions₂
  releases : ∀ id, (host.pending id).manual = true →
    (.release id ∈ actions₁ ↔ .release id ∈ actions₂)

/-- No pending value fails, and every source compiles that a render comes to when just these values
are ready. -/
structure NothingFails (host : Host) (fuel : Nat) (starts : List (Request × Config))
    (ready : PendingId → Bool) : Prop where
  pending : ∀ id, ∃ v, (host.pending id).result = .ok v
  sources : ∀ start ∈ starts, ∀ source tags,
    (start.1.plan fuel start.2).Reads host ready source tags →
    ∃ nodes, Template.compile source tags = .ok nodes

variable {config₁ config₂ : Config} {actions₁ actions₂ : List Action} {fuel : Nat}

theorem SameWork.ready_eq (h : SameWork host config₁ actions₁ config₂ actions₂) :
    Action.ready host actions₁ = Action.ready host actions₂ := by
  funext id
  rw [Bool.eq_iff_iff, Action.ready_iff, Action.ready_iff]
  cases hm : (host.pending id).manual with
  | false => simp
  | true => simp [h.releases id hm]

/-- Then a render meets no faults but its own. -/
theorem NothingFails.faults {starts : List (Request × Config)} {ready : PendingId → Bool}
    (h : NothingFails host fuel starts ready) {plan : Plan Text} (hm : plan ∈ plans fuel starts) :
    (∀ error, ¬ plan.Faults host ready error) ∨ ∃ error, plan = .fail error := by
  obtain ⟨start, hs, rfl⟩ := List.mem_map.1 hm
  refine (Request.unfailing_or_fail fuel start.1 start.2).imp_left fun hu error hf => ?_
  rcases hf.of_unfailing hu with ⟨id, hid⟩ | ⟨source, tags, hreads, hc⟩
  · obtain ⟨v, hv⟩ := h.pending id
    simp [hid] at hv
  · obtain ⟨nodes, hn⟩ := h.sources start hs source tags hreads
    simp [hc] at hn

section
variable {plans : List (Plan Text)} {number : Nat} {renders renders₁ renders₂ : List Rendering}
  {store store₁ store₂ : Store}

/-- Statuses of renders of the same plans are related when what they tell relates them. -/
theorem AllSound.statuses (h₁ : AllSound hp plans number store₁ renders₁)
    (h₂ : AllSound hp plans number store₂ renders₂)
    (hquiet₁ : ∀ rendering ∈ renders₁, rendering.hasNews = false)
    (hquiet₂ : ∀ rendering ∈ renders₂, rendering.hasNews = false) {R : Status → Status → Prop}
    (hR : ∀ plan ∈ plans, ∀ first second : Status,
      first.Tells host plan (store₁.isReady host) (· ∈ store₁.begun) →
      second.Tells host plan (store₂.isReady host) (· ∈ store₂.begun) → R first second) :
    List.Forall₂ R (renders₁.map Rendering.status) (renders₂.map Rendering.status) := by
  induction plans generalizing number renders₁ renders₂ with
  | nil =>
    cases h₁
    cases h₂
    exact .nil
  | cons plan plans ih =>
    cases h₁ with
    | cons hfirst₁ hrest₁ =>
      cases h₂ with
      | cons hfirst₂ hrest₂ =>
        rw [List.forall_mem_cons] at hquiet₁ hquiet₂
        rw [List.forall_mem_cons] at hR
        exact .cons (hR.1 _ _ (hfirst₁.tells hquiet₁.1) (hfirst₂.tells hquiet₂.1))
          (ih hrest₁ hrest₂ hquiet₁.2 hquiet₂.2 hR.2)

/-- Everything is begun that the plans begin, when no fault is met. -/
theorem AllSound.begun (h : AllSound hp plans number store renders)
    (hquiet : ∀ rendering ∈ renders, rendering.hasNews = false)
    (hne : .exhausted ∉ renders.map Rendering.status)
    (hf : ∀ plan ∈ plans, (∀ error, ¬ plan.Faults host (store.isReady host) error) ∨
      ∃ error, plan = .fail error)
    {plan : Plan Text} (hm : plan ∈ plans) {id : PendingId}
    (hb : plan.Begins host (store.isReady host) id) : id ∈ store.begun := by
  induction plans generalizing number renders with
  | nil => cases hm
  | cons first plans ih =>
    cases h with
    | cons hfirst hrest =>
      rw [List.forall_mem_cons] at hquiet hf
      rw [List.map_cons, List.mem_cons, not_or] at hne
      rcases List.mem_cons.1 hm with rfl | hm
      · exact (hfirst.tells hquiet.1).begun (Ne.symm hne.1) hf.1 id hb
      · exact ih hrest hquiet.2 hne.2 hf.2 hm

end

/-- Runs that do the same work come to the same, whenever each render is started and each value
released. If nothing fails, each render stands the same and the same values have been begun. In any
case, when all manual values have been released every render is over, with the same text or with
some error in both runs. Of a render whose nested work reaches the bound nothing is said. -/
theorem run_confluent (hp : host.Pure) (fuel : Nat)
    (h : SameWork host config₁ actions₁ config₂ actions₂) :
    let first := (new config₁).run host fuel actions₁
    let second := (new config₂).run host fuel actions₂
    (NothingFails host fuel (Action.starts config₁ actions₁) (Action.ready host actions₁) →
      List.Forall₂ (fun status₁ status₂ => status₁ ≠ .exhausted → status₂ ≠ .exhausted →
        status₁ = status₂) first.statuses second.statuses ∧
      (.exhausted ∉ first.statuses → .exhausted ∉ second.statuses →
        ∀ id, id ∈ first.store.begun ↔ id ∈ second.store.begun)) ∧
    ((∀ id, (host.pending id).manual = true → .release id ∈ actions₁) →
      List.Forall₂ (fun status₁ status₂ => status₁ ≠ .exhausted → status₂ ≠ .exhausted →
        ∃ outcome₁ outcome₂, status₁ = .finished outcome₁ ∧ status₂ = .finished outcome₂ ∧
          outcome₁.toOption = outcome₂.toOption) first.statuses second.statuses) := by
  intro first second
  obtain ⟨hsound₁, hready₁⟩ := sound_run_new hp fuel config₁ actions₁
  obtain ⟨hsound₂, hready₂⟩ := sound_run_new hp fuel config₂ actions₂
  rw [← h.starts] at hsound₂
  rw [← h.ready_eq] at hready₂
  have htells := fun {R : Status → Status → Prop} =>
    AllSound.statuses hsound₁.renders hsound₂.renders hsound₁.quiet hsound₂.quiet (R := R)
  rw [hready₁, hready₂] at htells
  refine ⟨fun hnothing => ⟨htells fun plan hm s₁ s₂ h₁ h₂ hne₁ hne₂ => ?_, fun hne₁ hne₂ id => ?_⟩,
    fun hall => htells fun plan hm s₁ s₂ h₁ h₂ hne₁ hne₂ => ?_⟩
  · exact h₁.unique h₂ hne₁ hne₂ (hnothing.faults hm)
  · constructor
    · intro hi
      obtain ⟨plan, hm, hb⟩ := hsound₁.begun_of id hi
      refine AllSound.begun hsound₂.renders hsound₂.quiet hne₂ (fun plan hm => ?_) hm ?_
      · exact hready₂ ▸ hnothing.faults hm
      · rw [hready₂, ← hready₁]
        exact hb
    · intro hi
      obtain ⟨plan, hm, hb⟩ := hsound₂.begun_of id hi
      refine AllSound.begun hsound₁.renders hsound₁.quiet hne₁ (fun plan hm => ?_) hm ?_
      · exact hready₁ ▸ hnothing.faults hm
      · rw [hready₁, ← hready₂]
        exact hb
  · refine h₁.agree h₂ hne₁ hne₂ fun id => Action.ready_iff.2 ?_
    cases hmanual : (host.pending id).manual with
    | false => exact .inl rfl
    | true => exact .inr (hall id hmanual)

/-- Two manual values, each of which becomes a text. -/
def twoTexts : Host where
  pending
    | 0 => ⟨.ok (.string ['a']), true⟩
    | 1 => ⟨.ok (.string ['b']), true⟩
    | _ => ⟨.ok .null, false⟩
  inline _ _ := .null
  block _ _ _ := .value .null

/-- A render that shows both. -/
def bothShown : Request where
  template := .string "{{x}}{{y}}".toList
  view := .map [(['x'], .pending 0), (['y'], .pending 1)]
  partials := .empty
  tags := none
  escape := none

theorem compile_bothShown : Template.compile "{{x}}{{y}}".toList default =
    .ok [.interpolation (.keys [['x']]) true ⟨0, 5⟩,
      .interpolation (.keys [['y']]) true ⟨5, 10⟩] := by
  cbv

theorem nothingFails_bothShown (ready : PendingId → Bool) :
    NothingFails twoTexts 2 [(bothShown, default)] ready := by
  refine ⟨fun id => ?_, fun start hs source tags hreads => ?_⟩
  · match id with
    | 0 | 1 | _ + 2 => exact ⟨_, rfl⟩
  · obtain rfl : start = (bothShown, default) := by simpa using hs
    rcases hreads with ⟨rfl, rfl⟩ | ⟨nodes, hn, hreads⟩
    · exact ⟨_, compile_bothShown⟩
    · -- both tags await their values and read nothing
      obtain rfl := Except.ok.inj (hn.symm.trans compile_bothShown)
      rcases hreads with ⟨⟨i, hi⟩, hreads⟩ | ⟨_, -, hreads⟩
      · match i, hi with
        | 0, _ | 1, _ =>
          obtain ⟨-, v, hv, hreads⟩ := hreads
          cases hv
          exact hreads.elim
      · exact hreads.elim

/-- The values may come in either order, before the render or after it. -/
theorem run_confluent_bothShown :
    let actions₁ := [.start bothShown, .release 0, .release 1]
    let actions₂ := [.release 1, .start bothShown, .release 0]
    let first := (new default).run twoTexts 2 actions₁
    let second := (new default).run twoTexts 2 actions₂
    twoTexts.Pure ∧ SameWork twoTexts default actions₁ default actions₂ ∧
    List.Forall₂ (fun status₁ status₂ => status₁ ≠ .exhausted → status₂ ≠ .exhausted →
      status₁ = status₂) first.statuses second.statuses ∧
    List.Forall₂ (fun status₁ status₂ => status₁ ≠ .exhausted → status₂ ≠ .exhausted →
      ∃ outcome₁ outcome₂, status₁ = .finished outcome₁ ∧ status₂ = .finished outcome₂ ∧
        outcome₁.toOption = outcome₂.toOption) first.statuses second.statuses := by
  intro actions₁ actions₂ first second
  have hp : twoTexts.Pure := ⟨fun _ _ _ => rfl, fun _ _ _ _ => rfl⟩
  have hwork : SameWork twoTexts default actions₁ default actions₂ :=
    ⟨rfl, fun id _ => by simp [actions₁, actions₂, or_comm]⟩
  obtain ⟨hsame, hover⟩ := run_confluent hp 2 hwork
  refine ⟨hp, hwork, (hsame (nothingFails_bothShown _)).1, hover fun id hm => ?_⟩
  match id with
  | 0 | 1 => simp [actions₁]
  | _ + 2 => cases hm

example : ((new default).run twoTexts 2 [.release 1, .start bothShown, .release 0]).statuses =
    [.finished (.ok ['a', 'b'])] := by
  cbv

end Engine

end Stencil
