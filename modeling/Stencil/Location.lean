import Stencil.Text.Basic

/-!
# Places in a source

A place is a byte offset together with its line and column, both from 1. A line ends at a line feed,
and a column counts characters. An offset past the end is the place of the end.
-/

namespace Stencil

structure Location where
  offset : Nat
  line : Nat
  column : Nat
  deriving DecidableEq, Repr

namespace Location

/-- The byte offset after the last line feed. -/
def lineStart (before : Text) : Nat :=
  match before.lastOffset? '\n' with
  | some feed => feed + 1
  | none => 0

def ofOffset (source : Text) (offset : Nat) : Location :=
  let before := source.takeBytes offset
  { offset := min offset source.size
    line := before.count '\n' + 1
    column := (before.dropBytes (lineStart before)).length + 1 }

/-- The characters since the last line feed. -/
def lastLine (before : Text) : Text :=
  (before.reverse.takeWhile (· != '\n')).reverse

theorem lastLine_append {t : Text} (no_feed : '\n' ∉ t) (front : Text) :
    lastLine (front ++ t) = lastLine front ++ t := by
  have hall : ∀ c ∈ t.reverse, (c != '\n') = true := by
    intro c hc
    have : c ≠ '\n' := fun h => no_feed (h ▸ List.mem_reverse.1 hc)
    simpa using this
  rw [lastLine, List.reverse_append, List.takeWhile_append_of_pos hall, List.reverse_append,
    List.reverse_reverse, lastLine]

theorem lastLine_feed (front : Text) : lastLine (front ++ ['\n']) = [] := by
  simp [lastLine]

theorem lastLine_of_no_feed {t : Text} (no_feed : '\n' ∉ t) : lastLine t = t :=
  lastLine_append no_feed []

theorem lastLine_after_feed {back : Text} (no_feed : '\n' ∉ back) (front : Text) :
    lastLine (front ++ '\n' :: back) = back := by
  rw [List.append_cons, lastLine_append no_feed, lastLine_feed, List.nil_append]

/-- A text without line feeds, or cut after the last one. -/
theorem cases_last_feed (t : Text) :
    '\n' ∉ t ∨ ∃ front back, t = front ++ '\n' :: back ∧ '\n' ∉ back := by
  by_cases h : '\n' ∈ t
  · obtain ⟨back, front, hsplit, no_feed⟩ := List.eq_append_cons_of_mem (List.mem_reverse.2 h)
    refine .inr ⟨front.reverse, back.reverse, ?_, by simpa using no_feed⟩
    rw [← List.reverse_reverse t, hsplit]
    simp
  · exact .inl h

/-- What the scan for the last line feed leaves is the last line. -/
@[simp] theorem dropBytes_lineStart (before : Text) :
    before.dropBytes (lineStart before) = lastLine before := by
  rcases cases_last_feed before with no_feed | ⟨front, back, rfl, no_feed⟩
  · rw [lineStart, Text.lastOffset?_of_notMem no_feed, lastLine_of_no_feed no_feed]
    exact Text.dropBytes_zero before
  · have hfeed : '\n'.utf8Size = 1 := rfl
    have hsize : front.size + 1 = Text.size (front ++ ['\n']) := by simp [hfeed]
    rw [lineStart, Text.lastOffset?_append_cons front no_feed, lastLine_after_feed no_feed,
      List.append_cons]
    simp only [hsize, Text.dropBytes_size_append]

theorem takeBytes_of_size_le {source : Text} {n : Nat} (h : source.size ≤ n) :
    source.takeBytes n = source := by
  obtain ⟨k, rfl⟩ := Nat.exists_eq_add_of_le h
  simpa [Text.takeBytes] using Text.takeBytes_size_add source [] k

/-- Past the end is the end. -/
theorem ofOffset_of_size_le {source : Text} {offset : Nat} (h : source.size ≤ offset) :
    ofOffset source offset = ofOffset source source.size := by
  simp [ofOffset, takeBytes_of_size_le h, takeBytes_of_size_le (Nat.le_refl source.size), h]

/-- Written as line and column with a colon between. -/
def text (l : Location) : Text :=
  l.line.repr.toList ++ ':' :: l.column.repr.toList

end Location
end Stencil
