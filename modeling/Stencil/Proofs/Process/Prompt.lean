import Stencil.Proofs.Plan.Failure
import Stencil.Proofs.Plan.Lawful

/-!
# Processes that fail in time

A process fails when its plan fails: with the failure of the plan, as long as no large join is met.
In a large one a member may have failed before, when fewer values were ready, and wait for its turn
to fail the join; so with what it fails depends on the order of the releases, whether it fails does
not.
-/

namespace Stencil
namespace Process

variable {α β σ : Type} {host : Host} {bound : Option Error}

/-- What an advance says about the failure of a plan. -/
def Comes (host : Host) (bound : Option Error) (plan : Plan α) (ready : PendingId → Bool)
    (holds : σ → Store → Prop) (advance : Advance σ α) : Prop :=
  match advance.reached with
  | .ended (.ok _) => True
  | .ended (.error error) =>
    (plan.failure? host bound ready).isSome ∧
      (¬ plan.Queues host ready → plan.failure? host bound ready = some error)
  | .exhausted => True
  | .waiting state =>
    holds state advance.store ∧ (¬ plan.Queues host ready →
      plan.result? host ready = none ∧ plan.failure? host bound ready = none)

/-- A lawful process that fails when its plan fails. While it waits, what has failed in it is bound
to fail it. -/
structure Prompt (bound : Option Error) {plan : Plan α} {process : Process α}
    (law : Lawful host plan process) where
  /-- In a state, every failure that has come is one of its part of the plan. -/
  Holds : process.State → Store → Prop
  holds_mono : ∀ {state} {before after : Store},
    (∀ id, before.isReady host id = true → after.isReady host id = true) →
    Holds state before → Holds state after
  holds_hear : ∀ {state store} path, Holds state store → Holds (process.hear path state) store
  comes : ∀ {place} {state : Option process.State} {store : Store}, store.Sound host →
    (∀ s, state = some s → law.Rests host place s store) → (∀ s, state = some s → Holds s store) →
    Comes host bound plan (store.isReady host) Holds (process.advance place state store)
  asleep : ∀ {place state} {store : Store}, law.Stands state store →
    law.Asleep host place state store → Holds state store →
    plan.failure? host bound (store.isReady host) = none

namespace Prompt

variable {plan : Plan α} {process : Process α} {law : Lawful host plan process}
  (prompt : Prompt bound law)

theorem holds_of_steps {state : process.State} {mine : Place → Prop} {begins : PendingId → Prop}
    {before after : Store} (h : prompt.Holds state before)
    (hs : before.Steps host mine begins after) : prompt.Holds state after :=
  prompt.holds_mono (fun _ hr => hs.isReady_eq ▸ hr) h

/-- A process that never waits. -/
def unwaiting (never : process.State → Empty)
    (comes : ∀ {place} {state : Option process.State} {store : Store}, store.Sound host →
      Comes host bound plan (store.isReady host) (fun state _ => (never state).elim)
        (process.advance place state store)) : Prompt bound law where
  Holds state _ := (never state).elim
  holds_mono {state} := (never state).elim
  holds_hear {state} := (never state).elim
  comes h _ _ := comes h
  asleep {_ state} := (never state).elim

/-- A process that does a single thing. -/
def act {action : Store → Except Error α × Store} {law : Lawful host plan (Process.act action)}
    (fails : ∀ {store : Store} {error}, store.Sound host → (action store).1 = .error error →
      plan.failure? host bound (store.isReady host) = some error) : Prompt bound law := by
  refine unwaiting id fun {_ _ store} h => ?_
  simp only [Comes, Process.act]
  cases hr : (action store).1 with
  | ok result => trivial
  | error error =>
    rw [fails h hr]
    exact ⟨rfl, fun _ => rfl⟩

def exhausted {law : Lawful host (.exhausted : Plan α) Process.exhausted} : Prompt bound law :=
  unwaiting id fun _ => trivial

def value (host : Host) (id : PendingId) : Prompt bound (Lawful.value host id) where
  Holds _ _ := True
  holds_mono _ _ := trivial
  holds_hear _ _ := trivial
  comes {place state store} h _ _ := by
    have hended : ∀ {news : Bool} {after : Store}, store.isReady host id = true →
        Comes host bound (.await id .done) (store.isReady host) (fun (_ : Nat) _ => True)
          ⟨.ended (host.pending id).result, news, after⟩ := by
      intro news after hr
      cases hv : (host.pending id).result with
      | ok v => trivial
      | error error => simp [Comes, Plan.failure?, hr, hv]
    have hwaiting : ∀ {number : Nat} {after : Store}, store.isReady host id = false →
        Comes host bound (.await id .done) (store.isReady host) (fun (_ : Nat) _ => True)
          ⟨.waiting number, false, after⟩ :=
      fun hr => ⟨trivial, fun _ => by simp [Plan.result?, Plan.failure?, hr]⟩
    have hready : (store.begin id).isReady host id = store.isReady host id := rfl
    simp only [Process.value, hready]
    split
    · rename_i hy
      exact hended (h.yielded id hy)
    · split
      · exact hended ‹_›
      · rename_i hr
        cases state <;> exact hwaiting (by simpa using hr)
  asleep {place state store} _ h _ := by
    have hr := h.not_ready id state place ⟨rfl, rfl, rfl⟩
    simp [Plan.failure?, hr]

end Prompt

section Bind
variable {plan : Plan β} {next : β → Plan α} {process : Process β} {rest : β → Process α}
  {law : Lawful host plan process} {laws : ∀ b, Lawful host (next b) (rest b)}
  {ready : PendingId → Bool}

/-- An advance of the second process, when the first is over. -/
theorem comes_within {b : β} {holds : (process.bind rest).State → Store → Prop}
    {advance : Advance (rest b).State α} {news : Bool} (hb : plan.result? host ready = some b)
    (h : Comes host bound (next b) ready (fun state => holds (.inr ⟨b, state⟩)) advance) :
    Comes host bound (plan.bind next) ready holds (advance.within (.inr ⟨b, ·⟩) news) := by
  have hqueues : ¬ (plan.bind next).Queues host ready → ¬ (next b).Queues host ready :=
    mt fun hq => Plan.queues_bind.2 (.inr ⟨b, hb, hq⟩)
  obtain ⟨reached, anews, after⟩ := advance
  match reached with
  | .ended (.ok result) => trivial
  | .ended (.error error) =>
    simp only [Comes, Advance.within, Plan.failure?_bind, hb]
    exact ⟨h.1, fun hq => h.2 (hqueues hq)⟩
  | .exhausted => trivial
  | .waiting state =>
    simp only [Comes, Advance.within, Plan.failure?_bind, Plan.result?_bind, hb, Option.bind_some]
    exact ⟨h.1, fun hq => h.2 (hqueues hq)⟩

namespace Prompt

variable (prompt : Prompt bound law) (prompts : ∀ b, Prompt bound (laws b))

/-- What holds in a process that goes on with another. -/
def BindHolds : (process.bind rest).State → Store → Prop
  | .inl state => prompt.Holds state
  | .inr ⟨b, state⟩ => (prompts b).Holds state

theorem bind_first {place : Place} {store : Store} (h : store.Sound host)
    (state : Option process.State) (hrest : ∀ s, state = some s → law.Rests host place s store)
    (hholds : ∀ s, state = some s → prompt.Holds s store) :
    Comes host bound (plan.bind next) (store.isReady host) (BindHolds prompt prompts)
      ((process.bind rest).advance place (state.map .inl) store) := by
  have hs := law.steps h hrest
  have hr := law.reaches h hrest
  have hc := prompt.comes h hrest hholds
  rw [Lawful.advance_bind_inl]
  generalize process.advance place state store = advance at hs hr hc
  obtain ⟨reached, news, after⟩ := advance
  match reached with
  | .ended (.ok b) =>
    have hb : plan.result? host (store.isReady host) = some b := hs.isReady_eq ▸ hr.1
    refine comes_within hb ?_
    rw [← hs.isReady_eq]
    exact (prompts b).comes hs.sound nofun nofun
  | .ended (.error error) =>
    have hnone := Plan.result?_of_isSome_failure? hc.1
    simp only [Comes, Plan.failure?_bind, hnone]
    exact ⟨hc.1, fun hq => hc.2 (mt (fun hq => Plan.queues_bind.2 (.inl hq)) hq)⟩
  | .exhausted => trivial
  | .waiting later =>
    refine ⟨hc.1, fun hq => ?_⟩
    obtain ⟨hnone, hfails⟩ := hc.2 (mt (fun hq => Plan.queues_bind.2 (.inl hq)) hq)
    simp [Plan.failure?_bind, Plan.result?_bind, hnone, hfails]

/-- A process that goes on with another fails in time if both do. -/
def bind : Prompt bound (law.bind laws) where
  Holds := BindHolds prompt prompts
  holds_mono {state _ _} hr h := by
    match state with
    | .inl _ => exact prompt.holds_mono hr h
    | .inr ⟨b, _⟩ => exact (prompts b).holds_mono hr h
  holds_hear {state _} path h := by
    match state with
    | .inl _ => exact prompt.holds_hear path h
    | .inr ⟨b, _⟩ => exact (prompts b).holds_hear path h
  comes {place state store} h hrest hholds := by
    match state with
    | none => exact bind_first prompt prompts h none nofun nofun
    | some (.inl s) =>
      refine bind_first prompt prompts h (some s) ?_ ?_
      · rintro _ ⟨⟩
        exact rests_inl.1 (hrest _ rfl)
      · rintro _ ⟨⟩
        exact hholds _ rfl
    | some (.inr ⟨b, s⟩) =>
      obtain ⟨⟨hb, -⟩, hr⟩ := rests_inr.1 (hrest _ rfl)
      refine comes_within hb ((prompts b).comes h ?_ ?_)
      · rintro _ ⟨⟩
        exact hr
      · rintro _ ⟨⟩
        exact hholds _ rfl
  asleep {_ state _} hs hasleep hholds := by
    match state with
    | .inl _ =>
      obtain ⟨-, hnone, -⟩ := law.blocked hs (asleep_inl.1 hasleep)
      have hfails := prompt.asleep hs (asleep_inl.1 hasleep) hholds
      simp only [Plan.failure?_bind, hnone, hfails]
    | .inr ⟨b, _⟩ =>
      obtain ⟨hb, -, hs⟩ := hs
      simp only [Plan.failure?_bind, hb]
      exact (prompts b).asleep hs ⟨hasleep.idle, hasleep.not_ready⟩ hholds

/-- That the end of a process is news changes nothing about its failure. -/
def announced : Prompt bound law.announced where
  Holds := prompt.Holds
  holds_mono := prompt.holds_mono
  holds_hear := prompt.holds_hear
  comes {place state store} h hrest hholds := by
    have hc := prompt.comes h (fun s e => ⟨(hrest s e).stands, (hrest s e).seated, (hrest s e).alert⟩)
      hholds
    have hresult : (Plan.inner plan .done).result? host (store.isReady host) =
        plan.result? host (store.isReady host) := by simp [Plan.result?]
    simp only [Process.announced]
    generalize process.advance place state store = advance at hc
    obtain ⟨reached, news, after⟩ := advance
    match reached with
    | .ended (.ok result) => trivial
    | .ended (.error error) =>
      simp only [Comes, Plan.failure?_inner_done, Plan.queues_inner_done]
      exact hc
    | .exhausted => trivial
    | .waiting later =>
      simp only [Comes, Plan.failure?_inner_done, Plan.queues_inner_done, hresult]
      exact hc
  asleep hs hasleep hholds :=
    Plan.failure?_inner_done.trans (prompt.asleep hs ⟨hasleep.idle, hasleep.not_ready⟩ hholds)

end Prompt
end Bind

end Process
end Stencil
