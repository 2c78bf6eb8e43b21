import Stencil.Text.Basic

/-!
# Boundaries

A byte offset is a boundary of a text if no character reaches over it. A part of a text is cut out
between two boundaries, and what can be cut out is a part of it.
-/

namespace Stencil
namespace Text

/-- A byte offset in the text, and not inside a character. -/
def IsBoundary (t : Text) (n : Nat) : Prop :=
  (t.takeBytes n).size = n

instance (t : Text) (n : Nat) : Decidable (t.IsBoundary n) :=
  inferInstanceAs (Decidable (_ = _))

theorem isBoundary_append (s t : Text) : (s ++ t).IsBoundary s.size := by
  rw [IsBoundary, takeBytes_size_append]

/-- The bytes from `start` up to `stop`, if both are boundaries and in order. -/
def cut? (t : Text) (start stop : Nat) : Option Text :=
  if start ≤ stop ∧ t.IsBoundary start ∧ t.IsBoundary stop then some (t.slice start stop) else none

theorem cut?_append (a b c : Text) : cut? (a ++ (b ++ c)) a.size (a.size + b.size) = some b := by
  have hstop : (a ++ (b ++ c)).IsBoundary (a.size + b.size) := by
    have h := isBoundary_append (a ++ b) c
    rwa [List.append_assoc, size_append] at h
  rw [cut?, if_pos ⟨Nat.le_add_right .., isBoundary_append .., hstop⟩, slice_append]

theorem cut?_end (a b : Text) : cut? (a ++ b) a.size (a ++ b).size = some b := by
  simpa using cut?_append a b []

variable {t s : Text} {start mid stop : Nat}

/-- What can be cut out is a part of the text, and the offsets are its ends. -/
theorem cut?_eq_some_iff : t.cut? start stop = some s ↔
    ∃ a b, t = a ++ (s ++ b) ∧ start = a.size ∧ stop = a.size + s.size := by
  constructor
  · intro h
    unfold cut? at h
    split at h
    · rename_i range
      obtain ⟨hle, hstart, hstop⟩ := range
      obtain rfl := Option.some.inj h
      have hparts := takeBytes_append_dropBytes start t
      have hinner := takeBytes_append_dropBytes (stop - start) (t.dropBytes start)
      refine ⟨t.takeBytes start, (t.dropBytes start).dropBytes (stop - start), ?_, hstart.symm, ?_⟩
      · rw [slice, hinner, hparts]
      · have htake := takeBytes_size_add (t.takeBytes start) (t.dropBytes start) (stop - start)
        rw [hparts, hstart, Nat.add_sub_cancel' hle] at htake
        have hsize := congrArg size htake
        rw [hstop, size_append] at hsize
        exact hsize
    · cases h
  · rintro ⟨a, b, rfl, rfl, rfl⟩
    exact cut?_append a s b

theorem isBoundary_of_cut? (h : t.cut? start stop = some s) :
    t.IsBoundary start ∧ t.IsBoundary stop := by
  obtain ⟨a, b, rfl, rfl, rfl⟩ := cut?_eq_some_iff.1 h
  refine ⟨isBoundary_append a _, ?_⟩
  rw [← size_append, ← List.append_assoc]
  exact isBoundary_append _ b

theorem le_of_cut? (h : t.cut? start stop = some s) : start ≤ stop ∧ stop ≤ t.size := by
  obtain ⟨a, b, rfl, rfl, rfl⟩ := cut?_eq_some_iff.1 h
  simp only [size_append]
  omega

/-- Parts that follow each other are cut out as one. -/
theorem cut?_trans {u v : Text} (front : t.cut? start mid = some u)
    (back : t.cut? mid stop = some v) : t.cut? start stop = some (u ++ v) := by
  obtain ⟨a, b, ht, rfl, rfl⟩ := cut?_eq_some_iff.1 front
  obtain ⟨a', b', ht', hmid, rfl⟩ := cut?_eq_some_iff.1 back
  have hfront : a ++ u = a' := by
    have htake := takeBytes_size_append a' (v ++ b')
    rw [← ht', ht, ← hmid, ← size_append, ← List.append_assoc, takeBytes_size_append] at htake
    exact htake
  refine cut?_eq_some_iff.2 ⟨a, b', ?_, rfl, ?_⟩
  · rw [ht', ← hfront]
    simp
  · rw [← hmid, size_append, Nat.add_assoc]

/-- Between two boundaries in order there is a part of the text. -/
theorem cut?_of_isBoundary (hle : start ≤ stop) (first : t.IsBoundary start)
    (last : t.IsBoundary stop) : t.cut? start stop = some (t.slice start stop) := by
  rw [cut?, if_pos ⟨hle, first, last⟩]

end Text
end Stencil
