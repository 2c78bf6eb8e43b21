import Stencil.Proofs.Engine.Termination
import Stencil.Proofs.Plan.Lawful

/-!
# Stints of a plan

The process of a plan is advanced until it ends, and between its advances others have theirs. A plan
that calls no lambda keeps the law whatever lambdas there are: what it ends with is its result or one
of its faults. If all that it may come for is ready, it never waits without news, and so it is over
after as many advances as there is to do.
-/

namespace Stencil

variable {α β : Type} {host : Host}

namespace Plan

/-- The plan calls no lambda. -/
def CallFree : {α : Type} → Plan α → Prop
  | _, .done _ | _, .fail _ | _, .exhausted => True
  | _, .await _ next => ∀ v, (next v).CallFree
  | _, .callInline _ _ | _, .callBlock _ _ _ => False
  | _, .compile _ _ next => ∀ nodes, (next nodes).CallFree
  | _, .join _ members next => (∀ i, (members i).CallFree) ∧ ∀ results, (next results).CallFree
  | _, .inner plan next => plan.CallFree ∧ ∀ result, (next result).CallFree

namespace CallFree

theorem bind {plan : Plan α} {f : α → Plan β} (h : plan.CallFree) (hf : ∀ a, (f a).CallFree) :
    (plan.bind f).CallFree := by
  induction plan with
  | done result => exact hf result
  | fail | exhausted => trivial
  | await id next ih => exact fun v => ih v (h v) hf
  | callInline | callBlock => exact h.elim
  | compile source tags next ih => exact fun nodes => ih nodes (h nodes) hf
  | join count members next _ ih => exact ⟨h.1, fun results => ih results (h.2 results) hf⟩
  | inner plan next _ ih => exact ⟨h.1, fun result => ih result (h.2 result) hf⟩

theorem each {ι : Type*} {items : List ι} {f : ι → Plan β} (h : ∀ item ∈ items, (f item).CallFree) :
    (Plan.each items f).CallFree :=
  ⟨fun _ => h _ (by simp), fun _ => trivial⟩

/-- By recursion over the plan, like the law of plans with lambdas that answer the same at each call. -/
def lawful (host : Host) : {α : Type} → (plan : Plan α) → plan.CallFree →
    Process.Lawful host plan (plan.process host)
  | _, .done result, _ => .done result
  | _, .fail error, _ => .fail error
  | _, .exhausted, _ => .exhausted
  | _, .await id next, h => (Process.Lawful.value host id).bind fun v => lawful host (next v) (h v)
  | _, .callInline _ _, h => h.elim
  | _, .callBlock _ _ _, h => h.elim
  | _, .compile source tags next, h =>
    (Process.Lawful.compile source tags).bind fun nodes => lawful host (next nodes) (h nodes)
  | _, .join _ members next, h =>
    (Process.Lawful.join fun i => lawful host (members i) (h.1 i)).bind
      fun results => lawful host (next results) (h.2 results)
  | _, .inner plan next, h =>
    (lawful host plan h.1).announced.bind fun result => lawful host (next result) (h.2 result)

end CallFree

/-- The advances of the process of a plan, each with its number and the store that it finds. In between,
others take their steps. -/
inductive Stint (host : Host) (plan : Plan α) (place : Place) :
    Nat → Store → Advance (plan.process host).State α → Prop
  | start {store : Store} (sound : store.Sound host) :
    Stint host plan place 0 store (plan.advance host place store)
  | again {n : Nat} {before after : Store} {advance : Advance (plan.process host).State α}
    {state : (plan.process host).State} {mine : Place → Prop} {begins : PendingId → Prop}
    (h : Stint host plan place n before advance) (waits : advance.reached = .waiting state)
    (others : advance.store.Steps host mine begins after)
    (apart : ∀ part, place <:+ part → ¬ mine part) :
    Stint host plan place (n + 1) after ((plan.process host).advance place (some state) after)

/-- What holds of a state after so many advances, whatever others do then, and of the next state after
one more. -/
structure Invariant (host : Host) (plan : Plan α) (place : Place)
    (R : Nat → (plan.process host).State → Store → Prop) : Prop where
  others : ∀ {n state} {before after : Store} {mine : Place → Prop} {begins : PendingId → Prop},
    R n state before → before.Steps host mine begins after → (∀ part, place <:+ part → ¬ mine part) →
    R n state after
  advance : ∀ {n} {state : Option (plan.process host).State} {store : Store}, store.Sound host →
    (state = none → n = 0) → (∀ s, state = some s → R n s store) →
    ((plan.process host).advance place state store).store.Sound host ∧
      ∀ s, ((plan.process host).advance place state store).reached = .waiting s →
        R (n + 1) s ((plan.process host).advance place state store).store

variable {plan : Plan α} {place : Place} {n weight : Nat} {store : Store}
  {advance : Advance (plan.process host).State α} {ids : PendingId → Prop}

/-- Every stint goes on from a state of which the invariant holds. -/
theorem Stint.exists_state {R : Nat → (plan.process host).State → Store → Prop}
    (h : Stint host plan place n store advance) (invariant : Invariant host plan place R) :
    store.Sound host ∧ ∃ state : Option (plan.process host).State, (state = none → n = 0) ∧
      (∀ s, state = some s → R n s store) ∧
      advance = (plan.process host).advance place state store := by
  induction h with
  | start sound => exact ⟨sound, none, fun _ => rfl, nofun, rfl⟩
  | again _ waits others apart ih =>
    obtain ⟨sound, earlier, hfirst, hstate, rfl⟩ := ih
    obtain ⟨-, hnext⟩ := invariant.advance sound hfirst hstate
    refine ⟨others.sound, some _, nofun, ?_, rfl⟩
    rintro _ ⟨⟩
    exact invariant.others (hnext _ waits) others apart

/-- Between its advances, the process of a plan that calls no lambda is at rest. -/
theorem CallFree.invariant (free : plan.CallFree) (place : Place) :
    Invariant host plan place fun _ state store =>
      (CallFree.lawful host plan free).Rests host place state store where
  others h steps apart := (lawful host plan free).rests_of_steps h steps apart
  advance {n state store} sound _ hrest := by
    have hsteps := (lawful host plan free).steps sound hrest
    have hreach := (lawful host plan free).reaches sound hrest
    refine ⟨hsteps.sound, fun s hs => ?_⟩
    simp only [Process.View.Reaches, hs] at hreach
    exact hreach.1

/-- A stint does by the law what the plan comes to. -/
theorem Stint.reaches (h : Stint host plan place n store advance) (free : plan.CallFree) :
    store.Steps host (place <:+ ·) (fun id => plan.Begins host (store.isReady host) id) advance.store ∧
      (CallFree.lawful host plan free).Reaches host plan place advance := by
  obtain ⟨sound, state, -, hrest, rfl⟩ := h.exists_state (free.invariant place)
  exact ⟨(CallFree.lawful host plan free).steps sound hrest,
    (CallFree.lawful host plan free).reaches sound hrest⟩

/-- A state at rest that waits for nothing but what the plan may come for, and if all that is ready,
has less to do with each advance so far. -/
structure Nears (host : Host) (plan : Plan α) (place : Place) (weight : Nat)
    (left : (plan.process host).State → Nat) (n : Nat) (state : (plan.process host).State)
    (store : Store) : Prop where
  rests : (plan.watchful host).Rests host place state store
  asks : ∀ id number part, (plan.watchful host).Waits place state id number part → plan.Asks host id
  left_le : (∀ id, plan.Asks host id → store.isReady host id = true) → left state + n ≤ weight

/-- If all that the plan may come for is ready, an advance that does not end has news. -/
theorem Nears.next {left : (plan.process host).State → Nat}
    (lowers : (plan.watchful host).Lowers weight left) {state : Option (plan.process host).State}
    (sound : store.Sound host) (first : state = none → n = 0)
    (hstate : ∀ s, state = some s → Nears host plan place weight left n s store) {s}
    (hs : ((plan.process host).advance place state store).reached = .waiting s) :
    Nears host plan place weight left (n + 1) s
      ((plan.process host).advance place state store).store := by
  have hrest : ∀ s, state = some s → (plan.watchful host).Rests host place s store :=
    fun s he => (hstate s he).rests
  have hacts := (plan.watchful host).acts sound hrest
  have hreach := (plan.watchful host).reaches sound hrest
  simp only [Process.Watch.Reaches, hs] at hreach
  obtain ⟨hrests, hasleep, hkeeps⟩ := hreach
  have hasks : ∀ id number part, (plan.watchful host).Waits place s id number part →
      plan.Asks host id := by
    intro id number part hw
    rcases hkeeps.waits id number part hw with ⟨earlier, he, hw⟩ | hm
    · exact (hstate earlier he).asks id number part hw
    · exact hacts.asked part id hm
  refine ⟨hrests, hasks, fun ready => ?_⟩
  have hnews : ((plan.process host).advance place state store).news = true := by
    by_contra hn
    have hsleeps := hasleep (by simpa using hn)
    obtain ⟨id, number, part, hw⟩ := (plan.watchful host).waits hrests.stands hsleeps
    have hnot := hsleeps.not_ready id number part hw
    rw [ready id (hasks id number part hw)] at hnot
    cases hnot
  have hlt := (lowers.advance sound hrest).lt hnews
  rw [hs, Reached.remains] at hlt
  rw [hacts.isReady_eq] at ready
  cases state with
  | none =>
    obtain rfl := first rfl
    exact hlt
  | some earlier =>
    have hle := (hstate earlier rfl).left_le ready
    rw [Option.elim] at hlt
    omega

theorem nears_invariant {left : (plan.process host).State → Nat}
    (lowers : (plan.watchful host).Lowers weight left) (place : Place) :
    Invariant host plan place (Nears host plan place weight left) where
  others h steps apart :=
    ⟨(plan.watchful host).rests_of_steps h.rests steps apart, h.asks, fun ready =>
      h.left_le (steps.isReady_eq ▸ ready)⟩
  advance sound first hstate :=
    ⟨((plan.watchful host).acts sound fun s he => (hstate s he).rests).sound,
      fun _ => Nears.next lowers sound first hstate⟩

/-- A plan that comes for nothing but what is ready is never held up. So its process ends, after as many
advances as it has to do at most. -/
theorem Stint.ended (h : Stint host plan place n store advance) (confined : plan.Confined host ids weight)
    (ready : ∀ id, ids id → store.isReady host id = true) :
    (∃ outcome, advance.reached = .ended outcome) ∨
      n < weight ∧ ∃ state, advance.reached = .waiting state := by
  obtain ⟨left, lowers⟩ := confined.dwindles
  obtain ⟨sound, state, hfirst, hstate, rfl⟩ := h.exists_state (nears_invariant lowers place)
  have hrest : ∀ s, state = some s → (plan.watchful host).Rests host place s store :=
    fun s he => (hstate s he).rests
  have hbounded := (lowers.advance sound hrest).bounded
  cases hr : ((plan.process host).advance place state store).reached with
  | ended outcome => exact .inl ⟨outcome, rfl⟩
  | exhausted => exact absurd hr hbounded
  | waiting s =>
    have hnext := Nears.next lowers sound hfirst hstate hr
    have hready := ((plan.watchful host).acts sound hrest).isReady_eq
    have hle := hnext.left_le fun id ha => hready ▸ ready id (confined.of_asks ha)
    exact .inr ⟨by omega, s, rfl⟩

end Plan
end Stencil
