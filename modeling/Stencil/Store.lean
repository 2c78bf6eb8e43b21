import Std.Data.TreeSet
import Stencil.Cache
import Stencil.Host.Basic
import Stencil.Seats

/-!
# The store of a run

What renders on one engine share and leave behind: the cache, how far pending values have come, who
waits for them, and the calls of lambdas in their order.
-/

namespace Stencil

inductive Call
  | inline (id : LambdaId)
  | block (id : LambdaId) (raw : Text) (tags : Tags)
  deriving DecidableEq, Repr

def Call.lambda : Call → Lambda
  | .inline id => .inline id
  | .block id _ _ => .block id

structure Store where
  cache : Cache
  /-- The pending values whose computations have been begun. -/
  begun : Std.TreeSet PendingId
  /-- The manual ones that may become what they become. -/
  released : Std.TreeSet PendingId
  /-- Those that have yielded their results. -/
  yielded : Std.TreeSet PendingId
  /-- Who waits for the others. -/
  seats : Std.TreeMap PendingId Seats
  /-- The calls of lambdas, the last one first. -/
  calls : List Call
  /-- How often each lambda has been called. -/
  counts : List (Lambda × Nat)

namespace Store

def empty : Store :=
  ⟨.empty, ∅, ∅, ∅, ∅, [], []⟩

/-- Begins the computation of a pending value, unless it has been begun before. -/
def begin (store : Store) (id : PendingId) : Store :=
  { store with begun := store.begun.insert id }

theorem mem_begun_begin {store : Store} {id other : PendingId} :
    other ∈ (store.begin id).begun ↔ id = other ∨ other ∈ store.begun := by
  simp [begin, Std.TreeSet.mem_insert]

/-- Lets a manual pending value become what it becomes. -/
def release (store : Store) (id : PendingId) : Store :=
  { store with released := store.released.insert id }

/-- Whether a pending value can yield its result. -/
def isReady (host : Host) (store : Store) (id : PendingId) : Bool :=
  !(host.pending id).manual || id ∈ store.released

def seatsOf (store : Store) (id : PendingId) : Seats :=
  store.seats.getD id .empty

/-- Has a pending value yield its result. Nobody waits for it any longer. -/
def yield (store : Store) (id : PendingId) : Store :=
  { store with yielded := store.yielded.insert id, seats := store.seats.erase id }

@[simp] theorem seatsOf_yield (store : Store) (id : PendingId) :
    (store.yield id).seatsOf id = .empty := by
  simp [yield, seatsOf]

def setSeats (store : Store) (id : PendingId) (seats : Seats) : Store :=
  { store with seats := store.seats.insert id seats }

theorem seatsOf_setSeats (store : Store) (id other : PendingId) (seats : Seats) :
    (store.setSeats id seats).seatsOf other =
      if id = other then seats else store.seatsOf other := by
  simp [setSeats, seatsOf, Std.TreeMap.getD_insert]

/-- Gives a place a seat among those who wait for a pending value, and tells its number. -/
def seat (store : Store) (id : PendingId) (place : Place) : Nat × Store :=
  let seats := store.seatsOf id
  (seats.next, store.setSeats id (seats.take place))

def unseat (store : Store) (id : PendingId) (number : Nat) : Store :=
  store.setSeats id ((store.seatsOf id).leave number)

/-- How often a lambda has been called. -/
def callCount (store : Store) (lambda : Lambda) : Nat :=
  (store.counts.lookup lambda).getD 0

def record (store : Store) (call : Call) : Store :=
  { store with
    calls := call :: store.calls
    counts := (call.lambda, store.callCount call.lambda + 1) ::
      store.counts.filter fun entry => entry.1 != call.lambda }

theorem lookup_filter_of_ne {lambda other : Lambda} (h : lambda ≠ other)
    (counts : List (Lambda × Nat)) :
    (counts.filter fun entry => entry.1 != other).lookup lambda = counts.lookup lambda := by
  induction counts with
  | nil => rfl
  | cons entry counts ih =>
    obtain ⟨called, n⟩ := entry
    by_cases he : called = other
    · subst called
      have hl : (lambda == other) = false := by simpa using h
      simpa [List.lookup_cons, hl] using ih
    · simp only [bne_iff_ne, ne_eq, he, not_false_eq_true, List.filter_cons_of_pos,
        List.lookup_cons]
      rw [ih]

theorem callCount_record (store : Store) (call : Call) (lambda : Lambda) :
    (store.record call).callCount lambda =
      store.callCount lambda + if call.lambda = lambda then 1 else 0 := by
  by_cases h : call.lambda = lambda
  · simp [callCount, record, h]
  · have hl : (lambda == call.lambda) = false := by simp [Ne.symm h]
    simp only [callCount, record, List.lookup_cons, hl, lookup_filter_of_ne (Ne.symm h), h,
      if_false, Nat.add_zero]

/-- The calls after the first so many, in their order. -/
def callsFrom (store : Store) (earlier : Nat) : List Call :=
  store.calls.reverse.drop earlier

end Store
end Stencil
