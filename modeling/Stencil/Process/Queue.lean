import Std.Data.DTreeMap
import Stencil.Process.Results
import Stencil.Process.Sweep
import Stencil.Process.Turns

/-!
# Queues

A join of many members. They queue for their turns: first each in order, later those with news. A
member fails the join when all members before it have their results. An advance takes turns until
nobody is in the queue, or until it gives way to what is outside the join.
-/

namespace Stencil
namespace Process

variable {β : Type} {count : Nat}

structure Queue (members : Fin count → Process β) where
  turns : Turns (Fin count)
  /-- The members that have had a turn and wait. -/
  waiting : Std.DTreeMap (Fin count) fun i => (members i).State
  /-- Who waited after each turn so far, the last one first. -/
  past : List (Fin count)
  results : Results β

namespace Queue

variable {members : Fin count → Process β}

def start (members : Fin count → Process β) : Queue members :=
  ⟨.ofList (List.finRange count), ∅, [], .empty count⟩

/-- The members that wait, the last advanced first. -/
def live (queue : Queue members) : List (Member members) :=
  queue.past.eraseDups.filterMap fun i => (queue.waiting.get? i).map fun state => ⟨i, state⟩

@[simp] theorem live_start (members : Fin count → Process β) : (start members).live = [] := rfl

/-- Takes the member whose turn it is out of the queue, with no state before its first turn. -/
def next? (queue : Queue members) :
    Option (((i : Fin count) × Option (members i).State) × Queue members) :=
  match queue.turns.next? with
  | none => none
  | some (i, turns) =>
    some (⟨i, queue.waiting.get? i⟩, { queue with turns, waiting := queue.waiting.erase i })

theorem next?_eq_none_iff {queue : Queue members} :
    queue.next? = none ↔ queue.turns.toList = [] := by
  rw [← Turns.next?_eq_none_iff]
  simp only [next?]
  split <;> simp_all

/-- Puts a member that waits back, at the end of the queue if it has news. -/
def putBack (queue : Queue members) (member : Member members) (news : Bool) : Queue members :=
  { queue with
    turns := if news then queue.turns.add member.1 else queue.turns
    waiting := queue.waiting.insert member.1 member.2
    past := member.1 :: queue.past }

@[simp] theorem get?_waiting_putBack (queue : Queue members) (member : Member members)
    (news : Bool) : (queue.putBack member news).waiting.get? member.1 = some member.2 := by
  simp [putBack]

@[simp] theorem toList_turns_putBack (queue : Queue members) (member : Member members) :
    (queue.putBack member true).turns.toList = queue.turns.toList ++ [member.1] := by
  simp [putBack]

/-- After so many turns with news, and none in between that ended a member, the join gives way. -/
def patience : Nat := 2

/-- Takes turns until a member ends, at most `left`. The join gives way after the last turn, and
when its patience is at an end. -/
def stretch (place : Place) :
    (left patience : Nat) → Queue members → Bool → Store → Advance (Queue members) (Queue members)
  | left + 1, patience + 1, queue, news, store =>
    match queue.next? with
    | none => ⟨.waiting queue, news, store⟩
    | some (⟨i, state⟩, queue) =>
      let turn := (members i).advance (i :: place) state store
      match turn.reached with
      | .ended outcome =>
        match queue.results.put i outcome with
        | .ok results => ⟨.ended (.ok { queue with results }), news || turn.news, turn.store⟩
        | .error error =>
          ⟨.ended (.error error), news || turn.news, leaveAll members queue.live turn.store⟩
      | .exhausted => ⟨.exhausted, news || turn.news, turn.store⟩
      | .waiting state =>
        let queue := queue.putBack ⟨i, state⟩ turn.news
        if turn.news then stretch place left patience queue true turn.store
        else stretch place left (patience + 1) queue news turn.store
  | _, _, queue, _, store => ⟨.waiting queue, true, store⟩

/-- One stretch after the other, until `missing` further members have ended. -/
def stretches (place : Place) :
    (missing : Nat) → Queue members → Bool → Store → Advance (Queue members) (List β)
  | 0, queue, news, store => ⟨.ended (.ok queue.results.delivered.toList), news, store⟩
  | missing + 1, queue, news, store =>
    let advance := stretch place (missing + 1) patience queue news store
    match advance.reached with
    | .ended (.ok queue) => stretches place missing queue advance.news advance.store
    | .ended (.error error) => ⟨.ended (.error error), advance.news, advance.store⟩
    | .exhausted => ⟨.exhausted, advance.news, advance.store⟩
    | .waiting queue => ⟨.waiting queue, advance.news, advance.store⟩

/-- A member that hears news has a turn to come. -/
def hear (path : List Nat) (queue : Queue members) : Queue members :=
  match path with
  | [] => queue
  | number :: path =>
    if h : number < count then
      let i : Fin count := ⟨number, h⟩
      if i ∈ queue.waiting then
        { queue with
          turns := if i ∈ queue.turns then queue.turns else queue.turns.add i
          waiting := queue.waiting.modify i ((members i).hear path) }
      else queue
    else queue

end Queue

def queue (members : Fin count → Process β) : Process (List β) where
  State := Queue members
  advance place queue :=
    let queue := queue.getD (.start members)
    queue.stretches place queue.results.missing false
  hear := Queue.hear
  leave queue := leaveAll members queue.live

/-- A join of at most so many members is swept over; in a larger one the members queue. -/
def sweepLimit : Nat := 30

def join (members : Fin count → Process β) : Process (List β) :=
  if count ≤ sweepLimit then sweep members else queue members

end Process
end Stencil
