import Mathlib.Data.Prod.Lex
import Mathlib.Order.Monotone.Basic
import Stencil.Location
import Stencil.Proofs.Text.Boundary

/-!
# Places and positions

What stands before an offset fixes its place. Whatever comes next moves the place on, so the places of
a source are ordered as its offsets are, line before column, and the offset is found again by counting
line feeds and then characters.
-/

namespace Stencil
namespace Location

/-- The place after a text. -/
def past (before : Text) : Location :=
  ⟨before.size, before.count '\n' + 1, (lastLine before).length + 1⟩

theorem ofOffset_append (before after : Text) : ofOffset (before ++ after) before.size = past before := by
  simp [ofOffset, past]

/-- Line and column, compared by the line first. -/
def lineColumn (l : Location) : ℕ ×ₗ ℕ :=
  toLex (l.line, l.column)

/-- A text that is not empty moves the place on: to a later line if it has a line feed, and else to a
later column of the same line. -/
theorem lineColumn_past_append {gap : Text} (h : gap ≠ []) (before : Text) :
    (past before).lineColumn < (past (before ++ gap)).lineColumn := by
  rw [lineColumn, lineColumn, Prod.Lex.toLex_lt_toLex]
  by_cases hfeed : '\n' ∈ gap
  · left
    have hcount : 0 < gap.count '\n' := List.count_pos_iff.2 hfeed
    simp only [past, List.count_append]
    omega
  · right
    have hcount : gap.count '\n' = 0 := List.count_eq_zero.2 hfeed
    have hlength : 0 < gap.length := List.length_pos_iff.2 h
    simp only [past, List.count_append, hcount, lastLine_append hfeed, List.length_append, Nat.add_zero,
      true_and]
    omega

theorem lineColumn_lt {source : Text} {a b : Nat} (first : source.IsBoundary a)
    (last : source.IsBoundary b) (h : a < b) :
    (ofOffset source a).lineColumn < (ofOffset source b).lineColumn := by
  obtain ⟨front, back, hsource, rfl, hb⟩ :=
    Text.cut?_eq_some_iff.1 (Text.cut?_of_isBoundary h.le first last)
  generalize source.slice front.size b = gap at hsource hb
  subst hsource hb
  have hgap : gap ≠ [] := by
    rintro rfl
    simp at h
  have hlast := ofOffset_append (front ++ gap) back
  rw [List.append_assoc, Text.size_append] at hlast
  rw [ofOffset_append, hlast]
  exact lineColumn_past_append hgap front

/-- What comes after so many line feeds. -/
def skipFeeds : Nat → Text → Text
  | 0, t => t
  | _ + 1, [] => []
  | n + 1, c :: t => if c = '\n' then skipFeeds n t else skipFeeds (n + 1) t

theorem skipFeeds_feed (front back : Text) :
    skipFeeds (front.count '\n' + 1) (front ++ '\n' :: back) = back := by
  induction front with
  | nil => simp [skipFeeds]
  | cons c front ih =>
    by_cases hc : c = '\n'
    · simp [skipFeeds, hc, ih]
    · simp [skipFeeds, hc, ih]

/-- As many line feeds as a text has lead to the start of its last line. -/
theorem skipFeeds_append (before after : Text) :
    skipFeeds (before.count '\n') (before ++ after) = lastLine before ++ after := by
  rcases cases_last_feed before with no_feed | ⟨front, back, rfl, no_feed⟩
  · rw [List.count_eq_zero.2 no_feed, lastLine_of_no_feed no_feed, skipFeeds]
  · have hcount : (front ++ '\n' :: back).count '\n' = front.count '\n' + 1 := by
      simp [List.count_eq_zero.2 no_feed]
    rw [hcount, lastLine_after_feed no_feed, List.append_assoc, List.cons_append, skipFeeds_feed]

/-- The offset of a line and a column: behind the line feeds before that line, and the characters
before that column. -/
def offsetAt (source : Text) (line column : Nat) : Nat :=
  source.size - Text.size ((skipFeeds (line - 1) source).drop (column - 1))

theorem offsetAt_past (before after : Text) :
    offsetAt (before ++ after) (past before).line (past before).column = before.size := by
  simp [offsetAt, past, skipFeeds_append]

/-- The place of a position identifies it. Places are ordered as positions are, so that no two of them
are the same; the line is one more than the line feeds before the position, which is found again from
line and column. All offsets past the end have the place of the end. -/
theorem ofOffset_identifies (source : Text) :
    StrictMonoOn (fun a => (ofOffset source a).lineColumn) {a | source.IsBoundary a} ∧
      Set.InjOn (fun a => (ofOffset source a).lineColumn) {a | source.IsBoundary a} ∧
      (∀ before after, source = before ++ after →
        let place := ofOffset source before.size
        place.line = before.count '\n' + 1 ∧
          offsetAt source place.line place.column = before.size) ∧
      ∀ a, source.size ≤ a → ofOffset source a = ofOffset source source.size := by
  have hmono : StrictMonoOn (fun a => (ofOffset source a).lineColumn) {a | source.IsBoundary a} :=
    fun a ha b hb h => lineColumn_lt ha hb h
  refine ⟨hmono, hmono.injOn, ?_, fun a => ofOffset_of_size_le⟩
  rintro before after rfl
  simp only [ofOffset_append, offsetAt_past]
  exact ⟨rfl, trivial⟩

/-- Three lines, with characters of two bytes in the first and the last. -/
def threeLines : Text :=
  "aé\n\nüß".toList

theorem ofOffset_identifies_threeLines :
    threeLines.IsBoundary 3 ∧ threeLines.IsBoundary 4 ∧
      (ofOffset threeLines 3).lineColumn < (ofOffset threeLines 4).lineColumn ∧
      (ofOffset threeLines 7).text = "3:2".toList ∧ offsetAt threeLines 3 2 = 7 ∧
      ofOffset threeLines 99 = ⟨9, 3, 3⟩ := by
  have first : threeLines.IsBoundary 3 := by decide
  have last : threeLines.IsBoundary 4 := by decide
  obtain ⟨hmono, -, hplace, hend⟩ := ofOffset_identifies threeLines
  obtain ⟨-, hoffset⟩ := hplace "aé\n\nü".toList ['ß'] rfl
  exact ⟨first, last, hmono first last (by decide), by decide, hoffset,
    (hend 99 (by decide)).trans (by decide)⟩

end Location
end Stencil
