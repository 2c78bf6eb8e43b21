/-!
# Turns

Whose turns are to come: first come, first served.
-/

namespace Stencil

structure Turns (ι : Type) where
  front : List ι
  /-- Those after the front, the last to come first. -/
  back : List ι

namespace Turns

variable {ι : Type}

/-- All of them, in the order of their turns. -/
def toList (turns : Turns ι) : List ι :=
  turns.front ++ turns.back.reverse

def ofList (items : List ι) : Turns ι :=
  ⟨items, []⟩

@[simp] theorem toList_ofList (items : List ι) : (ofList items).toList = items := by
  simp [ofList, toList]

instance : Membership ι (Turns ι) where
  mem turns i := i ∈ turns.front ∨ i ∈ turns.back

theorem mem_iff {turns : Turns ι} {i : ι} : i ∈ turns ↔ i ∈ turns.front ∨ i ∈ turns.back :=
  Iff.rfl

@[simp] theorem mem_toList {turns : Turns ι} {i : ι} : i ∈ turns.toList ↔ i ∈ turns := by
  simp [mem_iff, toList]

instance [DecidableEq ι] (i : ι) (turns : Turns ι) : Decidable (i ∈ turns) :=
  decidable_of_iff (i ∈ turns.front ∨ i ∈ turns.back) mem_iff.symm

/-- Adds one more at the end. -/
def add (turns : Turns ι) (i : ι) : Turns ι :=
  { turns with back := i :: turns.back }

@[simp] theorem toList_add (turns : Turns ι) (i : ι) :
    (turns.add i).toList = turns.toList ++ [i] := by
  simp [add, toList]

/-- Who is first, and the others. -/
def next? (turns : Turns ι) : Option (ι × Turns ι) :=
  match turns.front with
  | i :: front => some (i, { turns with front })
  | [] =>
    match turns.back.reverse with
    | i :: front => some (i, ofList front)
    | [] => none

theorem toList_of_next? {turns rest : Turns ι} {i : ι} (h : turns.next? = some (i, rest)) :
    turns.toList = i :: rest.toList := by
  obtain ⟨front, back⟩ := turns
  cases front with
  | cons =>
    cases h
    rfl
  | nil =>
    simp only [next?] at h
    split at h
    · rename_i hb
      cases h
      simp [toList, ofList, hb]
    · cases h

theorem next?_eq_none_iff {turns : Turns ι} : turns.next? = none ↔ turns.toList = [] := by
  obtain ⟨front, back⟩ := turns
  cases front with
  | cons => simp [next?, toList]
  | nil =>
    simp only [next?, toList, List.nil_append]
    split <;> simp_all

end Turns
end Stencil
