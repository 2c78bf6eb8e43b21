import Stencil.Proofs.Indent.Padding

/-!
# Padding line by line

The lines of a padded text are the lines of the text, each of them padded or left alone by itself. The
padding can be taken off again, and to pad twice is to pad once with both.
-/

namespace Stencil

namespace Text

theorem splitAtChar_eq_splitOn (sep : Char) (t : Text) : splitAtChar sep t = t.splitOn sep :=
  splitWhere_eq_splitOnP _ t

theorem notMem_of_mem_splitOn {sep : Char} {t run : Text} (h : run ∈ t.splitOn sep) : sep ∉ run := by
  rw [← splitAtChar_eq_splitOn] at h
  intro hsep
  simpa using eq_false_of_mem_splitWhere h sep hsep

/-- There is one piece more than there are separators. -/
theorem length_splitOn (sep : Char) (t : Text) : (t.splitOn sep).length = t.count sep + 1 := by
  induction t with
  | nil => rfl
  | cons c t ih =>
    rw [List.splitOn_cons_eq_if_modifyHead, List.count_cons]
    split <;> simp [ih]

end Text

namespace Indent

/-- Changes the lines that an indentation pads. -/
def onLines (firstLine : Bool) (f : Text → Text) : List Text → List Text
  | [] => []
  | line :: lines => (if firstLine then f line else line) :: lines.map f

section

variable {firstLine : Bool} {f g : Text → Text} {lines : List Text}

theorem padLines_eq_onLines (indent : Indent) (lines : List Text) :
    indent.padLines lines = onLines indent.firstLine (padLine indent.padding) lines := by
  cases lines <;> rfl

theorem onLines_onLines :
    onLines firstLine f (onLines firstLine g lines) = onLines firstLine (f ∘ g) lines := by
  cases lines with
  | nil => rfl
  | cons line lines => cases firstLine <;> simp [onLines]

theorem onLines_id : onLines firstLine id lines = lines := by
  cases lines <;> simp [onLines]

theorem length_onLines : (onLines firstLine f lines).length = lines.length := by
  cases lines <;> simp [onLines]

theorem getElem?_onLines (k : Nat) : (onLines firstLine f lines)[k]? =
    lines[k]?.map fun line => if 0 < k ∨ firstLine = true then f line else line := by
  cases lines with
  | nil => rfl
  | cons line lines => cases k <;> simp [onLines]

theorem mem_onLines {line : Text} (h : line ∈ onLines firstLine f lines) :
    line ∈ lines ∨ ∃ other ∈ lines, line = f other := by
  obtain ⟨k, hk⟩ := List.getElem?_of_mem h
  rw [getElem?_onLines] at hk
  obtain ⟨other, hother, rfl⟩ := Option.map_eq_some_iff.1 hk
  have hmem := List.mem_of_getElem? hother
  split
  · exact .inr ⟨other, hmem, rfl⟩
  · exact .inl hmem

end

/-- Padding a line that is not empty does not make it empty. -/
theorem isEmptyLine_append {line : Text} (h : isEmptyLine line = false) (padding : Text) :
    isEmptyLine (padding ++ line) = false := by
  cases padding with
  | nil => exact h
  | cons c padding =>
    have hne : line ≠ [] := by
      rintro rfl
      cases h
    simp [isEmptyLine, hne]

theorem padLine_padLine (p q line : Text) : padLine p (padLine q line) = padLine (p ++ q) line := by
  cases hempty : isEmptyLine line with
  | true => simp [padLine, hempty]
  | false => simp [padLine, hempty, isEmptyLine_append hempty]

/-- Takes the padding off a line. -/
def unpadLine (padding line : Text) : Text :=
  if isEmptyLine line then line else line.drop padding.length

theorem unpadLine_padLine (padding line : Text) : unpadLine padding (padLine padding line) = line := by
  cases hempty : isEmptyLine line with
  | true => simp [unpadLine, padLine, hempty]
  | false => simp [unpadLine, padLine, hempty, isEmptyLine_append hempty]

/-- Takes the indentation off a text. -/
def remove (indent : Indent) (t : Text) : Text :=
  ['\n'].intercalate (onLines indent.firstLine (unpadLine indent.padding) (t.splitOn '\n'))

section

variable {indent : Indent} (no_feed : '\n' ∉ indent.padding)
include no_feed

/-- Padding puts no line feed into a line, so the lines are padded one by one. -/
theorem splitOn_apply (t : Text) : (indent.apply t).splitOn '\n' =
    onLines indent.firstLine (padLine indent.padding) (t.splitOn '\n') := by
  rw [apply, padLines_eq_onLines, Text.splitAtChar_eq_splitOn]
  refine List.splitOn_intercalate '\n' (fun line hline => ?_) ?_
  · rcases mem_onLines hline with hline | ⟨other, hother, rfl⟩
    · exact Text.notMem_of_mem_splitOn hline
    · have hother := Text.notMem_of_mem_splitOn hother
      unfold padLine
      split
      · exact hother
      · simp [no_feed, hother]
  · rw [ne_eq, ← List.length_eq_zero_iff, length_onLines, Text.length_splitOn]
    exact Nat.succ_ne_zero _

theorem count_apply (t : Text) : (indent.apply t).count '\n' = t.count '\n' := by
  have hlength := congrArg List.length (splitOn_apply no_feed t)
  rw [length_onLines, Text.length_splitOn, Text.length_splitOn] at hlength
  exact Nat.succ.inj hlength

theorem getElem?_splitOn_apply (t : Text) (k : Nat) : ((indent.apply t).splitOn '\n')[k]? =
    (t.splitOn '\n')[k]?.map fun line =>
      if line ≠ [] ∧ line ≠ ['\r'] ∧ (0 < k ∨ indent.firstLine = true) then indent.padding ++ line
      else line := by
  rw [splitOn_apply no_feed, getElem?_onLines]
  congr 1
  funext line
  by_cases hpads : 0 < k ∨ indent.firstLine = true <;>
    by_cases hnil : line = [] <;> by_cases hreturn : line = ['\r'] <;>
      simp [padLine, isEmptyLine, hpads, hnil, hreturn]

theorem remove_apply (t : Text) : indent.remove (indent.apply t) = t := by
  have hlines : unpadLine indent.padding ∘ padLine indent.padding = id :=
    funext (unpadLine_padLine indent.padding)
  rw [remove, splitOn_apply no_feed, onLines_onLines, hlines, onLines_id]
  exact List.intercalate_splitOn '\n'

end

/-- Indented twice, the inner padding comes after the outer one. -/
theorem apply_apply {q : Text} (no_feed : '\n' ∉ q) (p : Text) (firstLine : Bool) (t : Text) :
    (Indent.mk p firstLine).apply ((Indent.mk q firstLine).apply t) =
      (Indent.mk (p ++ q) firstLine).apply t := by
  have hlines : padLine p ∘ padLine q = padLine (p ++ q) := funext (padLine_padLine p q)
  have hinner := @splitOn_apply ⟨q, firstLine⟩ no_feed t
  rw [apply, padLines_eq_onLines, Text.splitAtChar_eq_splitOn, hinner, onLines_onLines, hlines, apply,
    padLines_eq_onLines, Text.splitAtChar_eq_splitOn]

theorem inline_of_blank {preceding : Text} (blank : Line.isBlank preceding = true) :
    inline preceding = ⟨preceding, false⟩ := by
  have hkept : (preceding.filter fun c => c != '\r' && c != '\n') = preceding := by
    refine List.filter_eq_self.2 fun c hc => ?_
    obtain ⟨-, hfeed, hreturn, -⟩ := Line.of_mem_blank blank hc
    simp [hfeed, hreturn]
  have hsame : preceding.map (fun c => if c = '\t' then '\t' else ' ') = preceding := by
    refine (List.map_congr_left fun c hc => ?_).trans (List.map_id preceding)
    rcases Line.isBlank_iff.1 blank c hc with rfl | rfl <;> rfl
  rw [inline, hkept, hsame]

theorem no_feed_of_blank {padding : Text} (blank : Line.isBlank padding = true) : '\n' ∉ padding :=
  fun h => (Line.of_mem_blank blank h).2.1 rfl

/-- To indent a text by blanks is to pad its lines, but for the empty ones, and the first one only if
the indentation says so. It can be undone, and two indentations of one kind make a third. -/
theorem apply_linewise {indent : Indent} (blank : Line.isBlank indent.padding = true) (t : Text) :
    (indent.apply t).count '\n' = t.count '\n' ∧
      (∀ k, ((indent.apply t).splitOn '\n')[k]? = (t.splitOn '\n')[k]?.map fun line =>
        if line ≠ [] ∧ line ≠ ['\r'] ∧ (0 < k ∨ indent.firstLine = true) then
          indent.padding ++ line
        else line) ∧
      indent.remove (indent.apply t) = t ∧
      ∀ p q : Text, Line.isBlank p = true → Line.isBlank q = true →
        (standalone p).apply ((standalone q).apply t) = (standalone (p ++ q)).apply t ∧
          (inline p).apply ((inline q).apply t) = (Indent.mk (p ++ q) false).apply t := by
  have no_feed := no_feed_of_blank blank
  refine ⟨count_apply no_feed t, getElem?_splitOn_apply no_feed t, remove_apply no_feed t, ?_⟩
  intro p q hp hq
  refine ⟨apply_apply (no_feed_of_blank hq) p true t, ?_⟩
  rw [inline_of_blank hp, inline_of_blank hq]
  exact apply_apply (no_feed_of_blank hq) p false t

/-- A continued text of four lines, two of which are empty. -/
def fourLines : Text :=
  "a\n\r\n\tb\n".toList

theorem apply_linewise_fourLines :
    let indent := inline " \t".toList
    Line.isBlank indent.padding = true ∧
      indent.apply fourLines = "a\n\r\n \t\tb\n".toList ∧
      (indent.apply fourLines).count '\n' = 3 ∧
      (∀ k, ((indent.apply fourLines).splitOn '\n')[k]? =
        (fourLines.splitOn '\n')[k]?.map fun line =>
          if line ≠ [] ∧ line ≠ ['\r'] ∧ (0 < k ∨ indent.firstLine = true) then
            indent.padding ++ line
          else line) ∧
      indent.remove (indent.apply fourLines) = fourLines ∧
      (inline "  ".toList).apply (indent.apply fourLines) =
        (Indent.mk "   \t".toList false).apply fourLines := by
  have blank : Line.isBlank (inline " \t".toList).padding = true := by decide
  obtain ⟨hfeeds, hlines, hremove, hnest⟩ := apply_linewise blank fourLines
  exact ⟨blank, by decide, hfeeds, hlines, hremove,
    (hnest "  ".toList " \t".toList (by decide) (by decide)).2⟩

end Indent
end Stencil
