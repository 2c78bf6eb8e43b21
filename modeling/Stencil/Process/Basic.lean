import Stencil.Store

/-!
# Processes

A process is a computation that is advanced again and again. An advance takes it as far as it can go
and tells whether there was news: whether something it waited for came about while it was being
advanced, or it gave way to others. Whoever advances a process with news does so again.
-/

namespace Stencil

/-- How far an advance gets. -/
inductive Reached (σ α : Type)
  | ended (outcome : Except Error α)
  /-- The bound on nested work has been reached. -/
  | exhausted
  | waiting (state : σ)

structure Advance (σ α : Type) where
  reached : Reached σ α
  news : Bool
  store : Store

namespace Advance

variable {σ τ α : Type}

/-- The advance of a part, seen as one of the whole. -/
def within (f : σ → τ) (earlier : Bool) (advance : Advance σ α) : Advance τ α where
  reached := match advance.reached with
    | .ended outcome => .ended outcome
    | .exhausted => .exhausted
    | .waiting state => .waiting (f state)
  news := earlier || advance.news
  store := advance.store

end Advance

structure Process (α : Type) where
  /-- Where the process can stand while it waits. -/
  State : Type
  /-- Goes on from a state, or from the start if there is none. -/
  advance : Place → Option State → Store → Advance State α
  /-- Hears that there is news for the part at the end of a path, from the outside in. -/
  hear : List Nat → State → State
  /-- Gives up all seats. -/
  leave : State → Store → Store

namespace Process

variable {α β : Type}

/-- Does a single thing to the store and ends. -/
def act (action : Store → Except Error α × Store) : Process α where
  State := Empty
  advance _ _ store := ⟨.ended (action store).1, false, (action store).2⟩
  hear _ state := state
  leave _ store := store

/-- Ends at once. -/
def ended (outcome : Except Error α) : Process α :=
  act fun store => (outcome, store)

def exhausted : Process α where
  State := Empty
  advance _ _ store := ⟨.exhausted, false, store⟩
  hear _ state := state
  leave _ store := store

/-- Waits for a pending value, in a seat of which it keeps the number. That the value yields is news
for the first to ask then, who has it yield, and for nobody who asks later. -/
def value (host : Host) (id : PendingId) : Process Value where
  State := Nat
  advance place seat store :=
    let store := store.begin id
    if id ∈ store.yielded then ⟨.ended (host.pending id).result, false, store⟩
    else if store.isReady host id then ⟨.ended (host.pending id).result, true, store.yield id⟩
    else
      match seat with
      | some number => ⟨.waiting number, false, store⟩
      | none =>
        let (number, store) := store.seat id place
        ⟨.waiting number, false, store⟩
  hear _ number := number
  leave number store := store.unseat id number

/-- The same process, whose end is news. -/
def announced (process : Process α) : Process α where
  State := process.State
  advance place state store :=
    let advance := process.advance place state store
    match advance.reached with
    | .ended _ => { advance with news := true }
    | _ => advance
  hear := process.hear
  leave := process.leave

/-- Goes on with `next` when the first process has its result. -/
def bind (process : Process β) (next : β → Process α) : Process α where
  State := process.State ⊕ (result : β) × (next result).State
  advance place state store :=
    match state with
    | some (.inr ⟨result, state⟩) =>
      ((next result).advance place (some state) store).within (.inr ⟨result, ·⟩) false
    | state =>
      let first := process.advance place (state.bind Sum.getLeft?) store
      match first.reached with
      | .ended (.ok result) =>
        ((next result).advance place none first.store).within (.inr ⟨result, ·⟩) first.news
      | .ended (.error error) => ⟨.ended (.error error), first.news, first.store⟩
      | .exhausted => ⟨.exhausted, first.news, first.store⟩
      | .waiting state => ⟨.waiting (.inl state), first.news, first.store⟩
  hear path
    | .inl state => .inl (process.hear path state)
    | .inr ⟨result, state⟩ => .inr ⟨result, (next result).hear path state⟩
  leave
    | .inl state, store => process.leave state store
    | .inr ⟨result, state⟩, store => (next result).leave state store

theorem bind_advance_of_ok {process : Process β} {next : β → Process α} {place : Place}
    {store after : Store} {news : Bool} {result : β}
    (h : process.advance place none store = ⟨.ended (.ok result), news, after⟩) :
    (process.bind next).advance place none store =
      ((next result).advance place none after).within (.inr ⟨result, ·⟩) news := by
  simp [bind, h]

theorem bind_advance_of_error {process : Process β} {next : β → Process α} {place : Place}
    {store after : Store} {news : Bool} {error : Error}
    (h : process.advance place none store = ⟨.ended (.error error), news, after⟩) :
    (process.bind next).advance place none store = ⟨.ended (.error error), news, after⟩ := by
  simp [bind, h]

end Process
end Stencil
