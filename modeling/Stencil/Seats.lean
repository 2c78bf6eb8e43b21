import Std.Data.TreeMap

/-!
# Seats

Whoever waits for a value has a seat. News of the value goes round in the order of the seats. A seat
that has been given up goes to the next to come, the one given up last first.
-/

namespace Stencil

/-- Where a computation stands in a run: its number in each join around it, from the inside out, and
last the number of its render. -/
abbrev Place := List Nat

structure Seats where
  /-- Who has the seat of each number that is taken. -/
  taken : Std.TreeMap Nat Place
  /-- The numbers of the seats that have been given up, the last one first. -/
  free : List Nat

namespace Seats

def empty : Seats :=
  ⟨∅, []⟩

/-- Those who wait, in the order of their seats. -/
def places (seats : Seats) : List Place :=
  seats.taken.values

/-- The number of the seat that goes to the next to come. -/
def next (seats : Seats) : Nat :=
  match seats.free with
  | number :: _ => number
  | [] => seats.taken.size

def take (seats : Seats) (place : Place) : Seats :=
  ⟨seats.taken.insert seats.next place, seats.free.tail⟩

theorem getElem?_taken_take (seats : Seats) (place : Place) (number : Nat) :
    (seats.take place).taken[number]? =
      if seats.next = number then some place else seats.taken[number]? := by
  simp [take, Std.TreeMap.getElem?_insert]

/-- Gives a seat up, if it is taken. -/
def leave (seats : Seats) (number : Nat) : Seats :=
  if number ∈ seats.taken then ⟨seats.taken.erase number, number :: seats.free⟩ else seats

theorem getElem?_taken_leave (seats : Seats) (number other : Nat) :
    (seats.leave number).taken[other]? =
      if number = other then none else seats.taken[other]? := by
  simp only [leave]
  split
  · simp [Std.TreeMap.getElem?_erase]
  · rename_i h
    split
    · subst other
      exact Std.TreeMap.getElem?_eq_none h
    · rfl

end Seats
end Stencil
