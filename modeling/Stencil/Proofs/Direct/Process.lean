import Stencil.Proofs.Cache
import Stencil.Proofs.Direct.Plan
import Stencil.Proofs.Plan.Lawful

/-!
# Processes that never wait

When no pending value is manual, a process ends at its first advance, and does what the plan comes to
when it is carried out in order. A join sweeps over its members or has them queue; either way each
has one turn, in order, and the first that ends otherwise than with a result ends the join.
-/

namespace Stencil

variable {α β : Type} {host : Host}

/-- What a computation comes to, and what has been done after it. -/
def Direct.outcome (direct : Direct α) (ledger : Ledger) : Except Stop α × Ledger :=
  (ExceptT.run direct).run ledger

theorem Direct.outcome_bind (direct : Direct α) (f : α → Direct β) (ledger : Ledger) :
    (direct >>= f).outcome ledger =
      match direct.outcome ledger with
      | (.ok result, after) => (f result).outcome after
      | (.error stop, after) => (.error stop, after) := by
  rcases h : direct.outcome ledger with ⟨outcome, after⟩
  have hrun : (ExceptT.run direct).run ledger = (outcome, after) := h
  cases outcome <;>
    simp [outcome, ExceptT.run_bind, StateT.run_bind, hrun] <;> rfl

/-- The outcomes of a list of computations are met one after the other. -/
theorem Direct.outcome_mapM_cons {ι : Type*} (f : ι → Direct β) (i : ι) (is : List ι)
    (ledger : Ledger) :
    ((i :: is).mapM f).outcome ledger =
      match (f i).outcome ledger with
      | (.error stop, after) => (.error stop, after)
      | (.ok result, after) =>
        match (is.mapM f).outcome after with
        | (.error stop, later) => (.error stop, later)
        | (.ok results, later) => (.ok (result :: results), later) := by
  rw [List.mapM_cons, outcome_bind]
  rcases (f i).outcome ledger with ⟨stop | result, after⟩
  · rfl
  · simp only [outcome_bind]
    rcases (is.mapM f).outcome after with ⟨stop | results, later⟩ <;> rfl

/-- What a store shows of the past: the calls in their order, the values begun and the keys of the
cache. -/
structure Store.Shows (store : Store) (ledger : Ledger) : Prop where
  calls : store.calls.reverse = ledger.calls
  begun : ∀ id, id ∈ store.begun ↔ id ∈ ledger.begun
  compiled : ∀ source tags, store.cache.Has source tags ↔ (source, tags) ∈ ledger.compiled
  cache : store.cache.Sound
  counts : ∀ lambda, store.callCount lambda = ledger.calls.countP (·.lambda = lambda)

namespace Store.Shows

variable {store : Store} {ledger : Ledger}

theorem begin (h : store.Shows ledger) (id : PendingId) :
    (store.begin id).Shows { ledger with begun := ledger.begun ++ [id] } :=
  { h with
    begun := fun other => by
      rw [mem_begun_begin, h.begun, List.mem_append, List.mem_singleton, or_comm, eq_comm] }

theorem yield (h : store.Shows ledger) (id : PendingId) : (store.yield id).Shows ledger :=
  { h with }

theorem record (h : store.Shows ledger) (call : Call) :
    (store.record call).Shows { ledger with calls := ledger.calls ++ [call] } :=
  { h with
    calls := by simp [Store.record, ← h.calls]
    counts := fun lambda => by
      rw [callCount_record, h.counts, List.countP_append, List.countP_singleton]
      simp }

theorem fetch_of_ok (h : store.Shows ledger) {source : Text} {tags : Tags} {nodes : List Node}
    (hc : Template.compile source tags = .ok nodes) :
    Store.Shows { store with cache := (store.cache.fetch source tags).2 }
      { ledger with compiled := ledger.compiled ++ [(source, tags)] } :=
  { h with
    compiled := fun other pair => by
      rw [Cache.has_fetch hc, h.compiled, List.mem_append, List.mem_singleton, Prod.mk.injEq]
    cache := h.cache.fetch source tags }

theorem fetch_of_error (h : store.Shows ledger) {source : Text} {tags : Tags} {error : Error}
    (hc : Template.compile source tags = .error error) :
    Store.Shows { store with cache := (store.cache.fetch source tags).2 } ledger := by
  rw [h.cache.fetch_of_error hc]
  exact h

end Store.Shows

/-- How far an advance gets that never has to wait. -/
def Reached.ofOutcome {σ : Type} : Except Stop α → Reached σ α
  | .ok result => .ended (.ok result)
  | .error (.failed error) => .ended (.error error)
  | .error .exhausted => .exhausted

namespace Process

/-- The first advance of a process gets as far as a computation, and does the same. -/
def Follows (process : Process α) (direct : Direct α) : Prop :=
  ∀ place {store : Store} {ledger : Ledger}, store.Shows ledger →
    let advance := process.advance place none store
    advance.reached = .ofOutcome (direct.outcome ledger).1 ∧
      advance.store.Shows (direct.outcome ledger).2

theorem follows_ended (result : α) : (ended (.ok result)).Follows (pure result) :=
  fun _ _ _ h => ⟨rfl, h⟩

theorem follows_failed (error : Error) :
    (ended (.error error) : Process α).Follows (throw (.failed error)) :=
  fun _ _ _ h => ⟨rfl, h⟩

theorem follows_exhausted : (exhausted : Process α).Follows (throw .exhausted) :=
  fun _ _ _ h => ⟨rfl, h⟩

theorem follows_value {id : PendingId} (hm : (host.pending id).manual = false) :
    (value host id).Follows (Direct.await host id) := by
  intro place store ledger h
  have hready : (store.begin id).isReady host id = true := by simp [Store.isReady, hm]
  have hb := h.begin id
  have houtcome : (Direct.await host id).outcome ledger =
      ((host.pending id).result.mapError .failed,
        { ledger with begun := ledger.begun ++ [id] }) := by
    cases hr : (host.pending id).result <;> simp [Direct.await, Direct.outcome, hr] <;> rfl
  have hreached : (.ended (host.pending id).result : Reached Nat Value) =
      .ofOutcome ((Direct.await host id).outcome ledger).1 := by
    rw [houtcome]
    cases (host.pending id).result <;> rfl
  simp only [value, hready, if_true]
  split
  · exact ⟨hreached, houtcome ▸ hb⟩
  · exact ⟨hreached, houtcome ▸ hb.yield id⟩

theorem follows_callInline (id : LambdaId) :
    (act fun store => (.ok (host.inline id (store.callCount (.inline id))),
      store.record (.inline id))).Follows (Direct.callInline host id) := by
  intro place store ledger h
  have houtcome : (Direct.callInline host id).outcome ledger =
      (.ok (host.inline id (ledger.calls.countP (·.lambda = .inline id))),
        { ledger with calls := ledger.calls ++ [.inline id] }) := rfl
  refine ⟨?_, houtcome ▸ h.record _⟩
  rw [houtcome, ← h.counts]
  rfl

theorem follows_callBlock (id : LambdaId) (call : BlockCall) :
    (act fun store => (.ok (host.block id (store.callCount (.block id)) call),
      store.record (.block id call.raw call.tags))).Follows (Direct.callBlock host id call) := by
  intro place store ledger h
  have houtcome : (Direct.callBlock host id call).outcome ledger =
      (.ok (host.block id (ledger.calls.countP (·.lambda = .block id)) call),
        { ledger with calls := ledger.calls ++ [.block id call.raw call.tags] }) := rfl
  refine ⟨?_, houtcome ▸ h.record _⟩
  rw [houtcome, ← h.counts]
  rfl

theorem follows_compile (source : Text) (tags : Tags) :
    (act fun store =>
      let (entry, cache) := store.cache.fetch source tags
      (entry.map CacheEntry.nodes, { store with cache })).Follows
      (Direct.compile source tags) := by
  intro place store ledger h
  have hnodes := h.cache.map_nodes_fetch source tags
  cases hc : Template.compile source tags with
  | ok nodes =>
    have houtcome : (Direct.compile source tags).outcome ledger =
        (.ok nodes, { ledger with compiled := ledger.compiled ++ [(source, tags)] }) := by
      simp only [Direct.compile, hc]
      rfl
    refine ⟨?_, houtcome ▸ h.fetch_of_ok hc⟩
    rw [houtcome]
    simp only [act]
    rw [hnodes, hc]
    rfl
  | error error =>
    have houtcome : (Direct.compile source tags).outcome ledger =
        (.error (.failed error), ledger) := by
      simp only [Direct.compile, hc]
      rfl
    refine ⟨?_, houtcome ▸ h.fetch_of_error hc⟩
    rw [houtcome]
    simp only [act]
    rw [hnodes, hc]
    rfl

theorem Follows.bind {process : Process β} {rest : β → Process α} {direct : Direct β}
    {next : β → Direct α} (h : process.Follows direct) (hrest : ∀ b, (rest b).Follows (next b)) :
    (process.bind rest).Follows (direct >>= next) := by
  intro place store ledger hs
  obtain ⟨hreached, hafter⟩ := h place hs
  rw [Direct.outcome_bind]
  simp only [Process.bind, Option.bind_none]
  generalize process.advance place none store = advance at hreached hafter
  obtain ⟨reached, news, after⟩ := advance
  generalize direct.outcome ledger = came at hreached hafter ⊢
  obtain ⟨outcome, later⟩ := came
  obtain rfl : reached = .ofOutcome outcome := hreached
  rcases outcome with (error | _) | result
  · exact ⟨rfl, hafter⟩
  · exact ⟨rfl, hafter⟩
  · obtain ⟨hreached, hlater⟩ := hrest result place hafter
    refine ⟨?_, hlater⟩
    simp only [Reached.ofOutcome, Advance.within, hreached]
    rcases ((next result).outcome later).1 with (_ | _) | _ <;> rfl

theorem Follows.announced {process : Process α} {direct : Direct α} (h : process.Follows direct) :
    process.announced.Follows direct := by
  intro place store ledger hs
  obtain ⟨hreached, hafter⟩ := h place hs
  simp only [Process.announced]
  split
  · exact ⟨hreached, hafter⟩
  · exact ⟨hreached, hafter⟩

section Join
variable {count : Nat} {members : Fin count → Process β} {directs : Fin count → Direct β}
  {store : Store} {ledger : Ledger}

theorem live_unstarted (is : List (Fin count)) :
    Sweep.live (is.map fun i => (.inr ⟨i, none⟩ : Sweep.Entry members)) = [] := by
  induction is with
  | nil => rfl
  | cons i is ih => exact ih

/-- A pass over members that have not been advanced stops with the first that has no result. -/
theorem pass_follows (h : ∀ i, (members i).Follows (directs i)) (place : Place)
    (is : List (Fin count)) (hs : store.Shows ledger) :
    let pass := Sweep.pass place (is.map fun i => (.inr ⟨i, none⟩ : Sweep.Entry members)) store
    let came := (is.mapM directs).outcome ledger
    pass.store.Shows came.2 ∧
      match came.1 with
      | .ok results => pass.halt = none ∧ pass.entries = results.map .inl
      | .error (.failed error) => pass.halt = some (.failed error) ∧ Sweep.live pass.entries = []
      | .error .exhausted => pass.halt = some .exhausted := by
  induction is generalizing store ledger with
  | nil => exact ⟨hs, rfl, rfl⟩
  | cons i is ih =>
    obtain ⟨hreached, hafter⟩ := h i (i :: place) hs
    simp only [List.map_cons, Sweep.pass, Direct.outcome_mapM_cons]
    generalize (members i).advance (i :: place) none store = turn at hreached hafter
    generalize (directs i).outcome ledger = came at hreached hafter
    obtain ⟨reached, news, after⟩ := turn
    obtain ⟨outcome, later⟩ := came
    obtain rfl : reached = .ofOutcome outcome := hreached
    rcases outcome with (error | _) | result
    · exact ⟨hafter, rfl, live_unstarted is⟩
    · exact ⟨hafter, rfl⟩
    · obtain ⟨hlater, hcame⟩ := ih hafter
      simp only [Reached.ofOutcome]
      generalize (is.mapM directs).outcome later = came at hlater hcame
      obtain ⟨outcome, last⟩ := came
      rcases outcome with (error | _) | results
      · exact ⟨hlater, hcame.1, hcame.2⟩
      · exact ⟨hlater, hcame⟩
      · exact ⟨hlater, hcame.1, by simp [Sweep.Pass.after, hcame.2]⟩

theorem follows_sweep (h : ∀ i, (members i).Follows (directs i)) :
    (sweep members).Follows ((List.finRange count).mapM directs) := by
  intro place store ledger hs
  obtain ⟨hafter, hcame⟩ := pass_follows h place (List.finRange count) hs
  simp only [sweep, Option.getD_none, Sweep.fresh]
  generalize Sweep.pass place (_ : List (Sweep.Entry members)) store = pass at hafter hcame
  obtain ⟨entries, halt, news, after⟩ := pass
  generalize ((List.finRange count).mapM directs).outcome ledger = came at hafter hcame
  obtain ⟨outcome, later⟩ := came
  rcases outcome with (error | _) | results
  · obtain ⟨rfl, hlive⟩ := hcame
    refine ⟨rfl, ?_⟩
    simp only [hlive]
    exact hafter
  · obtain rfl := hcame
    exact ⟨rfl, hafter⟩
  · obtain ⟨rfl, rfl⟩ := hcame
    simp only [mapM_getLeft?_inl]
    exact ⟨rfl, hafter⟩

/-- A queue in which nobody has waited, with the members that have ended in front of the others. -/
structure Unwaited (is : List (Fin count)) (queue : Queue members) : Prop where
  turns : queue.turns = ⟨is, []⟩
  waiting : ∀ i, queue.waiting.get? i = none
  past : queue.past = []
  ahead : queue.results.ahead = List.replicate is.length none
  numbers : is.map Fin.val = List.range' queue.results.delivered.size is.length

theorem unwaited_start (members : Fin count → Process β) :
    Unwaited (List.finRange count) (Queue.start members) where
  turns := rfl
  waiting _ := Std.DTreeMap.get?_emptyc
  past := rfl
  ahead := by simp [Queue.start, Results.empty]
  numbers := by simp [Queue.start, Results.empty, List.range_eq_range']

theorem deliver_missing (delivered : Array β) (missing : Nat) :
    Results.deliver delivered (List.replicate missing none) =
      .ok ⟨delivered, List.replicate missing none⟩ := by
  cases missing <;> rfl

/-- The first in the queue has its turn, and ends before the others. -/
theorem Unwaited.next? {i : Fin count} {is : List (Fin count)} {queue : Queue members}
    (h : Unwaited (i :: is) queue) :
    ∃ rest : Queue members, queue.next? = some (⟨i, none⟩, rest) ∧ rest.live = [] ∧
      (∀ error, rest.results.put i (.error error) = .error error) ∧
      ∀ result, ∃ results, rest.results.put i (.ok result) = .ok results ∧
        results.delivered.toList = queue.results.delivered.toList ++ [result] ∧
        Unwaited is { rest with results } := by
  have hnumbers : (i : Nat) = queue.results.delivered.size ∧
      is.map Fin.val = List.range' (queue.results.delivered.size + 1) is.length := by
    simpa [List.range'_succ] using h.numbers
  have hput : ∀ outcome : Except Error β, queue.results.put i outcome =
      Results.deliver queue.results.delivered (some outcome :: List.replicate is.length none) := by
    intro outcome
    simp [Results.put, hnumbers.1, h.ahead, List.replicate_succ]
  refine ⟨{ queue with turns := ⟨is, []⟩, waiting := queue.waiting.erase i }, ?_, ?_, ?_, ?_⟩
  · simp [Queue.next?, Turns.next?, h.turns, h.waiting]
  · simp [Queue.live, h.past]
  · exact fun error => hput (.error error)
  · intro result
    refine ⟨⟨queue.results.delivered.push result, List.replicate is.length none⟩, ?_, by simp,
      ⟨rfl, fun j => ?_, h.past, rfl, by simpa using hnumbers.2⟩⟩
    · rw [hput, Results.deliver]
      exact deliver_missing _ _
    · rw [Std.DTreeMap.get?_erase, h.waiting]
      exact ite_self none

/-- Each member has one turn, in order, until one ends without a result. -/
theorem stretches_follows (h : ∀ i, (members i).Follows (directs i)) (place : Place)
    (is : List (Fin count)) {queue : Queue members} (news : Bool) (hq : Unwaited is queue)
    (hs : store.Shows ledger) :
    let advance := Queue.stretches place is.length queue news store
    let came := (is.mapM directs).outcome ledger
    advance.reached =
        .ofOutcome (came.1.map fun results => queue.results.delivered.toList ++ results) ∧
      advance.store.Shows came.2 := by
  induction is generalizing queue news store ledger with
  | nil =>
    have hnone : queue.results.delivered.toList ++ [] = queue.results.delivered.toList :=
      List.append_nil _
    exact ⟨congrArg (fun results => Reached.ended (.ok results)) hnone.symm, hs⟩
  | cons i is ih =>
    obtain ⟨rest, hnext, hlive, herror, hok⟩ := hq.next?
    obtain ⟨hreached, hafter⟩ := h i (i :: place) hs
    simp only [List.length_cons, Queue.stretches, Queue.stretch, Queue.patience, hnext,
      Direct.outcome_mapM_cons]
    generalize (members i).advance (i :: place) none store = turn at hreached hafter
    generalize (directs i).outcome ledger = came at hreached hafter
    obtain ⟨reached, anews, after⟩ := turn
    obtain ⟨outcome, later⟩ := came
    obtain rfl : reached = .ofOutcome outcome := hreached
    rcases outcome with (error | _) | result
    · simp only [Reached.ofOutcome, herror, hlive]
      exact ⟨rfl, hafter⟩
    · exact ⟨rfl, hafter⟩
    · obtain ⟨results, hput, hdelivered, hrest⟩ := hok result
      simp only [Reached.ofOutcome, hput]
      obtain ⟨hreached, hlater⟩ := ih (news || anews) hrest hafter
      generalize (is.mapM directs).outcome later = came at hreached hlater
      obtain ⟨outcome, last⟩ := came
      refine ⟨hreached.trans ?_, ?_⟩
      · rcases outcome with (error | _) | results
        · rfl
        · rfl
        · simp [Except.map, hdelivered, Reached.ofOutcome]
      · rcases outcome with (error | _) | results <;> exact hlater

theorem follows_queue (h : ∀ i, (members i).Follows (directs i)) :
    (Process.queue members).Follows ((List.finRange count).mapM directs) := by
  intro place store ledger hs
  have hmissing : (Queue.start members).results.missing = (List.finRange count).length := by
    simp [Queue.start, Results.missing_empty]
  have hall := stretches_follows h place (List.finRange count) false (unwaited_start members) hs
  simp only [Process.queue, Option.getD_none, hmissing]
  generalize ((List.finRange count).mapM directs).outcome ledger = came at hall
  obtain ⟨outcome, later⟩ := came
  refine ⟨hall.1.trans ?_, hall.2⟩
  rcases outcome with (error | _) | results <;> rfl

theorem follows_join (h : ∀ i, (members i).Follows (directs i)) :
    (join members).Follows ((List.finRange count).mapM directs) := by
  by_cases hc : count ≤ sweepLimit
  · rw [join_of_le hc]
    exact follows_sweep h
  · rw [join_of_lt (Nat.not_le.1 hc)]
    exact follows_queue h

/-- Swept over or queued, members do the same and come to the same. -/
theorem sweep_as_queue (h : ∀ i, (members i).Follows (directs i)) (place : Place)
    (hs : store.Shows ledger) :
    let swept := (sweep members).advance place none store
    let queued := (queue members).advance place none store
    ∃ outcome later, swept.reached = .ofOutcome outcome ∧ queued.reached = .ofOutcome outcome ∧
      swept.store.Shows later ∧ queued.store.Shows later := by
  obtain ⟨hswept, hafter⟩ := follows_sweep h place hs
  obtain ⟨hqueued, hafter'⟩ := follows_queue h place hs
  exact ⟨_, _, hswept, hqueued, hafter, hafter'⟩

end Join

end Process

/-- When no value is manual, the process of a plan carries it out in order. -/
theorem Plan.follows (hm : ∀ id, (host.pending id).manual = false) (plan : Plan α) :
    (plan.process host).Follows (plan.direct host) := by
  induction plan with
  | done result => exact Process.follows_ended result
  | fail error => exact Process.follows_failed error
  | exhausted => exact Process.follows_exhausted
  | await id next ih => exact (Process.follows_value (hm id)).bind ih
  | callInline id next ih => exact (Process.follows_callInline id).bind ih
  | callBlock id call next ih => exact (Process.follows_callBlock id call).bind ih
  | compile source tags next ih => exact (Process.follows_compile source tags).bind ih
  | join count members next ihm ih => exact (Process.follows_join ihm).bind ih
  | inner plan next ihp ih => exact ihp.announced.bind ih

end Stencil
