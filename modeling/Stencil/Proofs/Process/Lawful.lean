import Stencil.Process.Basic
import Stencil.Proofs.Plan.Prospect
import Stencil.Proofs.Store

/-!
# Lawful processes

A process carries out a plan lawfully when its advances can be told from the prospects of the plan.
What it ends with is the plan's result, or a fault the plan meets. While it waits, every part of it
has a seat for the value it waits for, and a part that is not going to be advanced waits for nothing
that is ready. So a process at rest that has no news is held up for good until something is released.
-/

namespace Stencil
namespace Process

variable {α β : Type} {host : Host}

/-- What can be said of the states of a process. -/
structure View (process : Process α) where
  /-- In a state at a place, who waits for a value in the seat of a number: a part, by its place. -/
  Waits : Place → process.State → PendingId → Nat → Place → Prop
  /-- No part has a turn to come. -/
  Idle : process.State → Prop
  /-- Every part that has no turn to come waits for nothing wanted at its place. -/
  Alert : (wanted : Place → PendingId → Prop) → Place → process.State → Prop
  /-- The past of the state is that of the plan. -/
  Stands : process.State → Store → Prop

namespace View

variable {process : Process α} (view : View process)

/-- Who waits for a value that is not ready has its seat. -/
def Seated (host : Host) (place : Place) (state : process.State) (store : Store) : Prop :=
  ∀ id number part, view.Waits place state id number part →
    store.isReady host id = true ∨ store.Occupied id number part

/-- What holds of a state between two advances. -/
structure Rests (host : Host) (place : Place) (state : process.State) (store : Store) : Prop where
  stands : view.Stands state store
  seated : view.Seated host place state store
  alert : view.Alert (fun _ id => store.isReady host id = true) place state

/-- Nothing that a state waits for is ready, and no part has a turn to come. -/
structure Asleep (host : Host) (place : Place) (state : process.State) (store : Store) : Prop where
  idle : view.Idle state
  not_ready : ∀ id number part, view.Waits place state id number part →
    store.isReady host id = false

/-- How far an advance gets, by the prospects of the plan. -/
def Reaches (host : Host) (plan : Plan α) (place : Place)
    (advance : Advance process.State α) : Prop :=
  let ready := advance.store.isReady host
  match advance.reached with
  | .ended (.ok result) =>
    plan.result? host ready = some result ∧
      ∀ id, plan.Begins host ready id → id ∈ advance.store.begun
  | .ended (.error error) => plan.Faults host ready error
  | .exhausted => True
  | .waiting state =>
    view.Rests host place state advance.store ∧
      (advance.news = false → view.Asleep host place state advance.store)

end View

/-- A process that carries out a plan, with a view of its states by which it keeps the law. -/
structure Lawful (host : Host) (plan : Plan α) (process : Process α) extends View process where
  suffix_of_waits : ∀ {place state id number part},
    Waits place state id number part → place <:+ part
  stands_mono : ∀ {state} {before after : Store},
    (∀ id, before.isReady host id = true → after.isReady host id = true) →
    (∀ id ∈ before.begun, id ∈ after.begun) → Stands state before → Stands state after
  alert_mono : ∀ {place state} {wanted more : Place → PendingId → Prop},
    (∀ id number part, Waits place state id number part → more part id → wanted part id) →
    Alert wanted place state → Alert more place state
  waits_of_hear : ∀ {path place state id number part},
    Waits place (process.hear path state) id number part → Waits place state id number part
  stands_hear : ∀ {state store} path, Stands state store → Stands (process.hear path state) store
  /-- The part at the end of a path may want anything once it has heard. -/
  alert_hear : ∀ {place state wanted} path, Alert wanted place state →
    Alert (fun part id => wanted part id ∨ part = path.reverse ++ place) place
      (process.hear path state)
  leaves : ∀ {place state} {store : Store}, store.Sound host →
    (∀ id number part, Waits place state id number part → store.isReady host id = true ∨
      ∀ other, store.Occupied id number other → other = part) →
    store.Leaves host (place <:+ ·) (process.leave state store)
  steps : ∀ {place} {state : Option process.State} {store : Store}, store.Sound host →
    (∀ s, state = some s → toView.Rests host place s store) →
    store.Steps host (place <:+ ·) (fun id => plan.Begins host (store.isReady host) id)
      (process.advance place state store).store
  reaches : ∀ {place} {state : Option process.State} {store : Store}, store.Sound host →
    (∀ s, state = some s → toView.Rests host place s store) →
    toView.Reaches host plan place (process.advance place state store)
  blocked : ∀ {place state} {store : Store}, Stands state store →
    toView.Asleep host place state store →
    (∃ id number part, Waits place state id number part) ∧
    plan.result? host (store.isReady host) = none ∧
    ((∀ error, ¬ plan.Faults host (store.isReady host) error) →
      ∀ id, plan.Begins host (store.isReady host) id → id ∈ store.begun)

namespace View

variable {process : Process α} {view : View process} {place : Place} {state : process.State}
  {mine : Place → Prop} {begins : PendingId → Prop} {before after : Store}

theorem Seated.of_steps (h : view.Seated host place state before)
    (hs : before.Steps host mine begins after)
    (hm : ∀ id number part, view.Waits place state id number part → ¬ mine part) :
    view.Seated host place state after := by
  intro id number part hw
  rcases hr : before.isReady host id with _ | _
  · rcases h id number part hw with hr' | ho
    · exact .inl (hs.isReady_eq ▸ hr')
    · exact .inr (hs.occupied id number part hr (hm id number part hw) ho)
  · exact .inl (hs.isReady_eq ▸ hr)

theorem Asleep.of_steps (h : view.Asleep host place state before)
    (hs : before.Steps host mine begins after) : view.Asleep host place state after :=
  ⟨h.idle, hs.isReady_eq ▸ h.not_ready⟩

/-- The parts that wait stand below the place. They stay alert when less is wanted, and when one of them
has heard. -/
structure Heeds (view : View process) : Prop where
  suffix_of_waits : ∀ {place state id number part},
    view.Waits place state id number part → place <:+ part
  alert_mono : ∀ {place state} {wanted more : Place → PendingId → Prop},
    (∀ id number part, view.Waits place state id number part → more part id → wanted part id) →
    view.Alert wanted place state → view.Alert more place state
  alert_hear : ∀ {place state wanted} path, view.Alert wanted place state →
    view.Alert (fun part id => wanted part id ∨ part = path.reverse ++ place) place
      (process.hear path state)

end View

namespace Lawful

variable {plan : Plan α} {process : Process α} (law : Lawful host plan process)

theorem heeds : law.toView.Heeds :=
  ⟨law.suffix_of_waits, law.alert_mono, law.alert_hear⟩

/-- What others do leaves a state at rest. -/
theorem rests_of_steps {place : Place} {state : process.State} {mine : Place → Prop}
    {begins : PendingId → Prop} {before after : Store} (h : law.Rests host place state before)
    (hs : before.Steps host mine begins after) (hm : ∀ part, place <:+ part → ¬ mine part) :
    law.Rests host place state after where
  stands := law.stands_mono (fun _ hr => hs.isReady_eq ▸ hr) hs.begun_mono h.stands
  seated := h.seated.of_steps hs fun _ _ _ hw => hm _ (law.suffix_of_waits hw)
  alert := hs.isReady_eq ▸ h.alert

/-- A process that waits for nothing: it does a single thing. -/
def act {action : Store → Except Error α × Store}
    (steps : ∀ {mine} {store : Store}, store.Sound host →
      store.Steps host mine (fun id => plan.Begins host (store.isReady host) id) (action store).2)
    (ok : ∀ {store : Store} {result}, store.Sound host → (action store).1 = .ok result →
      plan.result? host ((action store).2.isReady host) = some result ∧
        ∀ id, plan.Begins host ((action store).2.isReady host) id → id ∈ (action store).2.begun)
    (faults : ∀ {store : Store} {error}, store.Sound host → (action store).1 = .error error →
      plan.Faults host ((action store).2.isReady host) error) :
    Lawful host plan (Process.act action) where
  Waits _ state := state.elim
  Idle state := state.elim
  Alert _ _ state := state.elim
  Stands state := state.elim
  suffix_of_waits {_ state} := state.elim
  stands_mono {state} := state.elim
  alert_mono {_ state} := state.elim
  waits_of_hear {_ _ state} := state.elim
  stands_hear {state} := state.elim
  alert_hear {_ state} := state.elim
  leaves {_ state} := state.elim
  steps h _ := steps h
  reaches {_ _ store} h _ := by
    simp only [View.Reaches, Process.act]
    cases hr : (action store).1 with
    | ok result => exact ok h hr
    | error error => exact faults h hr
  blocked {_ state} := state.elim

def done (result : α) : Lawful host (.done result) (Process.ended (.ok result)) :=
  act (fun h => .refl h)
    (fun _ hr => ⟨by cases hr; rfl, fun _ hb => hb.elim⟩)
    (fun _ hr => by cases hr)

def fail (error : Error) : Lawful host (.fail error : Plan α) (Process.ended (.error error)) :=
  act (fun h => .refl h) (fun _ hr => by cases hr) (fun _ hr => by cases hr; rfl)

def exhausted : Lawful host (.exhausted : Plan α) Process.exhausted where
  Waits _ state := state.elim
  Idle state := state.elim
  Alert _ _ state := state.elim
  Stands state := state.elim
  suffix_of_waits {_ state} := state.elim
  stands_mono {state} := state.elim
  alert_mono {_ state} := state.elim
  waits_of_hear {_ _ state} := state.elim
  stands_hear {state} := state.elim
  alert_hear {_ state} := state.elim
  leaves {_ state} := state.elim
  steps h _ := .refl h
  reaches _ _ := trivial
  blocked {_ state} := state.elim

/-- The lambdas answer as at their first calls. -/
def callInline (hp : host.Pure) (id : LambdaId) :
    Lawful host (.callInline id .done) (Process.act fun store =>
      (.ok (host.inline id (store.callCount (.inline id))), store.record (.inline id))) :=
  act (fun h => Store.steps_record h _)
    (fun _ hr => ⟨by cases hr; exact congrArg some (hp.1 id 0 _), fun _ hb => hb.elim⟩)
    (fun _ hr => by cases hr)

def callBlock (hp : host.Pure) (id : LambdaId) (call : BlockCall) :
    Lawful host (.callBlock id call .done) (Process.act fun store =>
      (.ok (host.block id (store.callCount (.block id)) call),
        store.record (.block id call.raw call.tags))) :=
  act (fun h => Store.steps_record h _)
    (fun _ hr => ⟨by cases hr; exact congrArg some (hp.2 id 0 _ call), fun _ hb => hb.elim⟩)
    (fun _ hr => by cases hr)

def compile (source : Text) (tags : Tags) :
    Lawful host (.compile source tags .done) (Process.act fun store =>
      let (entry, cache) := store.cache.fetch source tags
      (entry.map CacheEntry.nodes, { store with cache })) :=
  act (fun h => Store.steps_fetch h source tags)
    (fun h hr => by
      have hc := (h.cache.map_nodes_fetch source tags).symm.trans hr
      exact ⟨by simp [Plan.result?, hc], fun _ ⟨_, _, hb⟩ => hb.elim⟩)
    (fun h hr => .inl ((h.cache.map_nodes_fetch source tags).symm.trans hr))

end Lawful

section Value
variable {id : PendingId} {place : Place} {store : Store}

/-- Whoever waits for a value has begun it and has a seat. -/
def View.value (host : Host) (id : PendingId) : View (Process.value host id) where
  Waits place state awaited number part := awaited = id ∧ number = state ∧ part = place
  Idle _ := True
  Alert _ _ _ := True
  Stands _ store := id ∈ store.begun

theorem value_steps (h : store.Sound host) (state : Option (Process.value host id).State) :
    store.Steps host (place <:+ ·)
      (fun other => (Plan.await id .done).Begins host (store.isReady host) other)
      ((Process.value host id).advance place state store).store := by
  have hb : store.Steps host (place <:+ ·)
      (fun other => (Plan.await id .done).Begins host (store.isReady host) other)
      (store.begin id) :=
    (Store.steps_begin h id).mono (fun _ hp => hp) fun _ he => .inl he
  simp only [Process.value]
  split
  · exact hb
  · split
    · rename_i hr
      exact hb.trans (Store.steps_yield hb.sound hr)
    · rename_i hr
      cases state with
      | none => exact hb.trans (Store.steps_seat hb.sound (by simpa using hr) place)
      | some number => exact hb

theorem value_reaches_ended {news : Bool} (hr : store.isReady host id = true)
    (hb : id ∈ store.begun) :
    (View.value host id).Reaches host (.await id .done) place
      ⟨.ended (host.pending id).result, news, store⟩ := by
  simp only [View.Reaches]
  split
  · rename_i v hv
    have hv : (host.pending id).result = .ok v := by simpa using hv
    refine ⟨by simp [Plan.result?, hr, hv], ?_⟩
    rintro _ (rfl | ⟨-, _, -, hb'⟩)
    · exact hb
    · exact hb'.elim
  · rename_i error he
    exact ⟨hr, .inl (by simpa using he)⟩
  · trivial
  · rename_i he
    cases he

theorem value_reaches_waiting {number : Nat} (hr : store.isReady host id = false)
    (hb : id ∈ store.begun) (ho : store.Occupied id number place) :
    (View.value host id).Reaches host (.await id .done) place ⟨.waiting number, false, store⟩ := by
  refine ⟨⟨hb, ?_, trivial⟩, fun _ => ⟨trivial, ?_⟩⟩
  · rintro _ _ _ ⟨rfl, rfl, rfl⟩
    exact .inr ho
  · rintro _ _ _ ⟨rfl, -, -⟩
    exact hr

theorem value_reaches (h : store.Sound host) {state : Option (Process.value host id).State}
    (hrest : ∀ s, state = some s → (View.value host id).Rests host place s store) :
    (View.value host id).Reaches host (.await id .done) place
      ((Process.value host id).advance place state store) := by
  have hs : store.Steps host (fun _ => False) (· = id) (store.begin id) := Store.steps_begin h id
  have hb : id ∈ (store.begin id).begun := Store.mem_begun_begin.2 (.inl rfl)
  simp only [Process.value]
  split
  · rename_i hy
    exact value_reaches_ended (hs.sound.yielded id hy) hb
  · split
    · rename_i hr
      exact value_reaches_ended hr hb
    · rename_i hr
      have hr : (store.begin id).isReady host id = false := by simpa using hr
      cases state with
      | none =>
        have hseat : (store.begin id).Steps host (fun _ => False) (fun _ => False)
            ((store.begin id).seat id place).2 := Store.steps_seat hs.sound hr place
        exact value_reaches_waiting (hseat.isReady_eq ▸ hr) (hseat.begun_mono _ hb)
          (Store.occupied_seat _ id place)
      | some number =>
        rcases (hrest number rfl).seated id number place ⟨rfl, rfl, rfl⟩ with hr' | ho
        · rw [← hs.isReady_eq, hr] at hr'
          cases hr'
        · exact value_reaches_waiting hr hb ho

def Lawful.value (host : Host) (id : PendingId) :
    Lawful host (.await id .done) (Process.value host id) where
  toView := .value host id
  suffix_of_waits h := h.2.2 ▸ List.suffix_rfl
  stands_mono _ hb h := hb _ h
  alert_mono _ _ := trivial
  waits_of_hear h := h
  stands_hear _ h := h
  alert_hear _ _ := trivial
  leaves {place state _} h hown :=
    Store.leaves_unseat h List.suffix_rfl (hown id state place ⟨rfl, rfl, rfl⟩)
  steps {_ state _} h _ := value_steps h state
  reaches h hrest := value_reaches h hrest
  blocked {place state store} hs h := by
    have hr := h.not_ready id state place ⟨rfl, rfl, rfl⟩
    refine ⟨⟨id, state, place, rfl, rfl, rfl⟩, by simp [Plan.result?, hr], ?_⟩
    rintro - _ (rfl | ⟨-, _, -, hb⟩)
    · exact hs
    · exact hb.elim

end Value

end Process
end Stencil
