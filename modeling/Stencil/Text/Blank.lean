import Stencil.Text.Basic

/-!
# Blank characters

The characters with the Unicode property White_Space, and what is cut with respect to them. The
narrower notion of a blank line, spaces and tabs only, belongs to the layout of lines.
-/

namespace Stencil
namespace Text

/-- The ranges of code points with the property White_Space, in order. -/
def blankRanges : List (Nat × Nat) :=
  [(0x9, 0xD), (0x20, 0x20), (0x85, 0x85), (0xA0, 0xA0), (0x1680, 0x1680), (0x2000, 0x200A),
    (0x2028, 0x2029), (0x202F, 0x202F), (0x205F, 0x205F), (0x3000, 0x3000)]

def isBlank (c : Char) : Bool :=
  blankRanges.any fun (low, high) => low ≤ c.toNat && c.toNat ≤ high

theorem isBlank_of_isWhitespace {c : Char} (h : c.isWhitespace = true) : isBlank c = true := by
  simp only [Char.isWhitespace, Bool.or_eq_true, decide_eq_true_eq] at h
  rcases h with ((rfl | rfl) | rfl) | rfl <;> decide

/-- The blanks at the front. -/
def leading (t : Text) : Text :=
  t.takeWhile isBlank

def trimStart (t : Text) : Text :=
  t.dropWhile isBlank

@[simp] theorem leading_append_trimStart (t : Text) : leading t ++ trimStart t = t :=
  List.takeWhile_append_dropWhile

/-- The blanks at the back. -/
def trailing (t : Text) : Text :=
  (t.reverse.takeWhile isBlank).reverse

def trimEnd (t : Text) : Text :=
  (t.reverse.dropWhile isBlank).reverse

@[simp] theorem trimEnd_append_trailing (t : Text) : trimEnd t ++ trailing t = t := by
  rw [trimEnd, trailing, ← List.reverse_append, List.takeWhile_append_dropWhile,
    List.reverse_reverse]

def trim (t : Text) : Text :=
  trimEnd (trimStart t)

/-- The runs of characters between blanks. -/
def words (t : Text) : List Text :=
  (splitWhere isBlank t).filter fun run => !run.isEmpty

/-- A blank parts two words. -/
theorem words_append_blank (s : Text) {c : Char} (t : Text) (h : isBlank c = true) :
    words (s ++ c :: t) = words s ++ words t := by
  rw [words, splitWhere_append_cons s t h, List.filter_append]
  rfl

theorem ne_nil_of_mem_words {t word : Text} (h : word ∈ words t) : word ≠ [] := by
  simpa using (List.mem_filter.1 h).2

theorem isBlank_of_mem_words {t word : Text} (h : word ∈ words t) :
    ∀ c ∈ word, isBlank c = false :=
  eq_false_of_mem_splitWhere (List.mem_filter.1 h).1

end Text
end Stencil
