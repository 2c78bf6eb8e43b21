import Stencil.Text.Basic

/-!
# Cursors

A cursor stands between two characters of a text and holds what follows. To seek a byte offset ahead
of it, only what lies between is passed over.
-/

namespace Stencil
namespace Text

structure Cursor (source : Text) where
  offset : Nat
  rest : Text
  exists_front : ∃ front, source = front ++ rest ∧ front.size = offset

namespace Cursor

variable {source : Text}

def start (source : Text) : Cursor source :=
  ⟨0, source, [], rfl, rfl⟩

theorem rest_eq (cursor : Cursor source) (n : Nat) :
    cursor.rest.dropBytes n = source.dropBytes (cursor.offset + n) := by
  obtain ⟨front, hs, ho⟩ := cursor.exists_front
  have h := dropBytes_size_add front cursor.rest n
  rw [← hs, ho] at h
  exact h.symm

/-- Passes over the characters that end at `target` or before it. -/
def forward (target : Nat) (offset : Nat) :
    (rest : Text) → (∃ front, source = front ++ rest ∧ front.size = offset) → Cursor source
  | [], h => ⟨offset, [], h⟩
  | c :: rest, h =>
    if offset + c.utf8Size ≤ target then
      forward target (offset + c.utf8Size) rest (by
        obtain ⟨front, hs, ho⟩ := h
        exact ⟨front ++ [c], by simp [hs], by simp [ho]⟩)
    else ⟨offset, c :: rest, h⟩

theorem rest_forward {target offset : Nat} {rest : Text}
    (h : ∃ front, source = front ++ rest ∧ front.size = offset) (hle : offset ≤ target) :
    (forward target offset rest h).rest = rest.dropBytes (target - offset) := by
  induction rest generalizing offset with
  | nil => simp [forward, dropBytes]
  | cons c rest ih =>
    simp only [forward, dropBytes]
    by_cases hc : offset + c.utf8Size ≤ target
    · rw [if_pos hc, if_pos (by omega), ih _ hc]
      congr 1
      omega
    · rw [if_neg hc, if_neg (by omega)]

/-- Moves to a byte offset; one inside a character counts as the start of the character. -/
def seek (cursor : Cursor source) (target : Nat) : Cursor source :=
  if cursor.offset ≤ target then forward target cursor.offset cursor.rest cursor.exists_front
  else forward target 0 source ⟨[], rfl, rfl⟩

theorem rest_seek (cursor : Cursor source) (target : Nat) :
    (cursor.seek target).rest = source.dropBytes target := by
  simp only [seek]
  split
  · rename_i h
    rw [rest_forward _ h, rest_eq]
    congr 1
    omega
  · rw [rest_forward _ (Nat.zero_le _), Nat.sub_zero]

end Cursor
end Text
end Stencil
