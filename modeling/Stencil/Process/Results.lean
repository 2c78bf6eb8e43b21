import Stencil.Error

/-!
# Results in order

Outcomes that come in any order and are delivered in the order of their numbers. A failure counts
when everything before it has been delivered.
-/

namespace Stencil

structure Results (β : Type) where
  delivered : Array β
  /-- The outcomes from the first that is missing on. -/
  ahead : List (Option (Except Error β))

namespace Results

variable {β : Type}

/-- Of so many outcomes none has come. -/
def empty (count : Nat) : Results β :=
  ⟨#[], List.replicate count none⟩

/-- How many outcomes are missing. -/
def missing (results : Results β) : Nat :=
  results.ahead.countP Option.isNone

theorem missing_empty (count : Nat) : (empty count : Results β).missing = count := by
  simp [empty, missing, List.countP_replicate]

def deliver (delivered : Array β) : List (Option (Except Error β)) → Except Error (Results β)
  | some (.ok result) :: ahead => deliver (delivered.push result) ahead
  | some (.error error) :: _ => .error error
  | ahead => .ok ⟨delivered, ahead⟩

/-- Takes the outcome of a number, and delivers what can be delivered. -/
def put (results : Results β) (number : Nat) (outcome : Except Error β) :
    Except Error (Results β) :=
  deliver results.delivered
    (results.ahead.set (number - results.delivered.size) (some outcome))

/-- Delivering takes results from the front and loses none. -/
theorem deliver_eq_ok {delivered : Array β} {ahead : List (Option (Except Error β))}
    {results : Results β} (h : deliver delivered ahead = .ok results) :
    results.delivered.toList.map (some ∘ .ok) ++ results.ahead =
      delivered.toList.map (some ∘ .ok) ++ ahead := by
  fun_induction deliver delivered ahead with
  | case1 delivered result ahead ih => simpa using ih h
  | case2 => simp at h
  | case3 =>
    cases h
    rfl

end Results
end Stencil
