import Stencil.Process.Basic

/-!
# Sweeps

A join of few members. An advance sweeps over those that have not ended, in order; one that waits
does not stop the later ones, and the first failure met ends the join.
-/

namespace Stencil
namespace Process

variable {β : Type} {count : Nat}

/-- A member of a join that waits, by its number. -/
abbrev Member (members : Fin count → Process β) : Type :=
  (i : Fin count) × (members i).State

/-- All the given members give up their seats, one after the other. -/
def leaveAll (members : Fin count → Process β) (live : List (Member members)) (store : Store) :
    Store :=
  live.foldl (fun store member => (members member.1).leave member.2 store) store

namespace Sweep

/-- A result, or a member on its way to one, with no state before its first advance. -/
abbrev Entry (members : Fin count → Process β) : Type :=
  β ⊕ (i : Fin count) × Option (members i).State

/-- Why a sweep ends before its end. -/
inductive Halt
  | exhausted
  | failed (error : Error)
  deriving DecidableEq, Repr

structure Pass (members : Fin count → Process β) where
  entries : List (Entry members)
  halt : Option Halt
  news : Bool
  store : Store

variable {members : Fin count → Process β}

/-- The pass with one more entry in front, passed before. -/
def Pass.after (pass : Pass members) (entry : Entry members) (news : Bool) : Pass members :=
  { pass with entries := entry :: pass.entries, news := news || pass.news }

/-- Advances the members in order. One that fails is left out. -/
def pass (place : Place) : List (Entry members) → Store → Pass members
  | [], store => ⟨[], none, false, store⟩
  | .inl result :: entries, store => (pass place entries store).after (.inl result) false
  | .inr ⟨i, state⟩ :: entries, store =>
    let turn := (members i).advance (i :: place) state store
    match turn.reached with
    | .ended (.ok result) => (pass place entries turn.store).after (.inl result) turn.news
    | .ended (.error error) => ⟨entries, some (.failed error), turn.news, turn.store⟩
    | .exhausted => ⟨entries, some .exhausted, turn.news, turn.store⟩
    | .waiting state => (pass place entries turn.store).after (.inr ⟨i, some state⟩) turn.news

/-- The members that wait. -/
def live (entries : List (Entry members)) : List (Member members) :=
  entries.filterMap fun
    | .inr ⟨i, some state⟩ => some ⟨i, state⟩
    | _ => none

def hear (path : List Nat) (entries : List (Entry members)) : List (Entry members) :=
  match path with
  | [] => entries
  | number :: path => entries.map fun
    | .inl result => .inl result
    | .inr ⟨i, state⟩ => .inr ⟨i, if i = number then state.map ((members i).hear path) else state⟩

/-- Every member before its first advance. -/
def fresh (members : Fin count → Process β) : List (Entry members) :=
  (List.finRange count).map fun i => .inr ⟨i, none⟩

end Sweep

def sweep (members : Fin count → Process β) : Process (List β) where
  State := List (Sweep.Entry members)
  advance place entries store :=
    let pass := Sweep.pass place (entries.getD (Sweep.fresh members)) store
    match pass.halt with
    | some .exhausted => ⟨.exhausted, pass.news, pass.store⟩
    | some (.failed error) =>
      ⟨.ended (.error error), pass.news, leaveAll members (Sweep.live pass.entries) pass.store⟩
    | none =>
      match pass.entries.mapM Sum.getLeft? with
      | some results => ⟨.ended (.ok results), pass.news, pass.store⟩
      | none => ⟨.waiting pass.entries, pass.news, pass.store⟩
  hear := Sweep.hear
  leave entries := leaveAll members (Sweep.live entries)

end Process
end Stencil
