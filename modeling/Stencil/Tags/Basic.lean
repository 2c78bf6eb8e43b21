import Stencil.Text.Quoted

/-!
# Pairs of tag delimiters

A pair says how a tag opens and how it closes. A pair is valid when neither side is empty or holds a
blank: an empty side would not move a scan forward, and a blank cannot be written in a tag that
changes the pair.
-/

namespace Stencil

structure Tags where
  opening : Text
  closing : Text
  deriving DecidableEq, Repr

namespace Tags

/-- Double braces. -/
instance : Inhabited Tags where
  default := ⟨['{', '{'], ['}', '}']⟩

/-- A text that can stand on one side of a pair. -/
def IsSide (t : Text) : Prop :=
  t ≠ [] ∧ ∀ c ∈ t, Text.isBlank c = false

theorem isSide_iff {t : Text} : (!t.isEmpty && !t.any Text.isBlank) = true ↔ IsSide t := by
  simp [IsSide]

instance (t : Text) : Decidable (IsSide t) :=
  decidable_of_iff _ isSide_iff

def Valid (tags : Tags) : Prop :=
  IsSide tags.opening ∧ IsSide tags.closing

instance (tags : Tags) : Decidable tags.Valid :=
  inferInstanceAs (Decidable (IsSide tags.opening ∧ IsSide tags.closing))

theorem Valid.opening_ne_nil {tags : Tags} (h : tags.Valid) : tags.opening ≠ [] := h.1.1

theorem Valid.closing_ne_nil {tags : Tags} (h : tags.Valid) : tags.closing ≠ [] := h.2.1

theorem valid_default : (default : Tags).Valid := by decide

/-- The two sides with a space between, as a tag that changes the pair writes them. -/
def text (tags : Tags) : Text :=
  tags.opening ++ ' ' :: tags.closing

end Tags
end Stencil
