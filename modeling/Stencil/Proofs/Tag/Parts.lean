import Stencil.Proofs.Text.Trim
import Stencil.Tag

/-!
# The parts of a tag

A body is its leading blanks, the sigil, the name between its blanks, and the second sigil of a change.
The blanks on the two sides of the name are found apart from each other, so where there is no name
the same blanks are both: then they are in the body once and among the parts twice.
-/

namespace Stencil

namespace Sigil

/-- How the sigil is written. -/
def mark : Sigil → Text
  | .escaped => []
  | .ampersand => ['&']
  | .triple => ['{']
  | .block => ['#']
  | .inverted => ['^']
  | .close => ['/']
  | .inclusion => ['>']
  | .comment => ['!']
  | .delimiters => ['=']

theorem ofChar?_eq_some_iff {c : Char} {sigil : Sigil} : ofChar? c = some sigil ↔ sigil.mark = [c] := by
  unfold ofChar?
  split <;> cases sigil <;> simp_all [mark, eq_comm]

/-- The characters that begin a tag of a kind of its own. -/
def marks : List Char :=
  ['&', '{', '#', '^', '/', '>', '!', '=']

theorem ofChar?_eq_none_iff {c : Char} : ofChar? c = none ↔ c ∉ marks := by
  unfold ofChar? marks
  split <;> simp_all

end Sigil

namespace Tag

variable {body : Text}

/-- A body is its leading blanks, its sigil and these inner characters. A change may end with its
sigil. -/
def Spells (body : Text) (sigil : Sigil) (inner : Text) : Prop :=
  ∃ rest, body = body.leading ++ (sigil.mark ++ rest) ∧
    rest = inner ++ if sigil = .delimiters ∧ rest.getLast? = some '=' then ['='] else []

/-- What is between the sigil and the end is all of it. -/
theorem Spells.unique {sigil : Sigil} {inner other : Text} (h : Spells body sigil inner)
    (ho : Spells body sigil other) : inner = other := by
  obtain ⟨rest, hbody, hrest⟩ := h
  obtain ⟨rest', hbody', hrest'⟩ := ho
  have hsame : rest = rest' :=
    List.append_cancel_left (List.append_cancel_left (hbody.symm.trans hbody'))
  subst hsame
  exact List.append_cancel_right (hrest.symm.trans hrest')

theorem mark_append_splitSigil (t : Text) : (splitSigil t).1.mark ++ (splitSigil t).2 = t := by
  cases t with
  | nil => rfl
  | cons c t =>
    rw [splitSigil]
    cases h : Sigil.ofChar? c with
    | none => rfl
    | some sigil => simp [Sigil.ofChar?_eq_some_iff.1 h]

theorem dropEquals_append (t : Text) :
    dropEquals t ++ (if t.getLast? = some '=' then ['='] else []) = t := by
  unfold dropEquals
  split
  · rename_i hlast
    obtain ⟨s, rfl⟩ := List.getLast?_eq_some_iff.1 hlast
    rw [List.dropLast_concat]
  · exact List.append_nil t

/-- What `parse` takes for the name and the blanks around it. -/
def inner (body : Text) : Text :=
  let (sigil, rest) := splitSigil body.trimStart
  if sigil = .delimiters then dropEquals rest else rest

theorem parse_eq (body : Text) : parse body =
    ⟨(splitSigil body.trimStart).1, (inner body).trim, (inner body).leading, (inner body).trailing⟩ :=
  rfl

theorem spells_inner (body : Text) : Spells body (parse body).sigil (inner body) := by
  rw [parse_eq]
  refine ⟨(splitSigil body.trimStart).2, ?_, ?_⟩
  · rw [mark_append_splitSigil, Text.leading_append_trimStart]
  · by_cases hchange : (splitSigil body.trimStart).1 = .delimiters
    · simp only [inner, hchange, if_true, true_and, dropEquals_append]
    · simp only [inner, hchange, if_false, false_and, List.append_nil]

theorem splitSigil_eq_escaped_iff {c : Char} {t : Text} :
    (splitSigil (c :: t)).1 = .escaped ↔ Sigil.ofChar? c = none := by
  rw [splitSigil]
  cases h : Sigil.ofChar? c with
  | none => exact iff_of_true rfl rfl
  | some sigil =>
    refine iff_of_false ?_ nofun
    rintro rfl
    cases Sigil.ofChar?_eq_some_iff.1 h

/-- A sigil is the first character that is not blank. -/
theorem sigil_eq_iff {sigil : Sigil} {c : Char} (marked : sigil.mark = [c]) :
    (parse body).sigil = sigil ↔ ∃ t, body.trimStart = c :: t := by
  have hc : Sigil.ofChar? c = some sigil := Sigil.ofChar?_eq_some_iff.2 marked
  have hescaped : Sigil.escaped ≠ sigil := by
    rintro rfl
    cases marked
  rw [parse_eq]
  cases body.trimStart with
  | nil => exact iff_of_false hescaped nofun
  | cons d t =>
    dsimp only
    rw [splitSigil]
    constructor
    · intro h
      cases hd : Sigil.ofChar? d with
      | none =>
        rw [hd] at h
        exact absurd h hescaped
      | some found =>
        rw [hd] at h
        obtain rfl : found = sigil := h
        rw [Sigil.ofChar?_eq_some_iff, marked] at hd
        cases hd
        exact ⟨t, rfl⟩
    · rintro ⟨t, ⟨⟩⟩
      rw [hc]

theorem sigil_eq_escaped_iff :
    (parse body).sigil = .escaped ↔ ∀ c ∈ body.trimStart.head?, c ∉ Sigil.marks := by
  rw [parse_eq]
  cases body.trimStart with
  | nil => exact iff_of_true rfl nofun
  | cons c t =>
    rw [splitSigil_eq_escaped_iff, Sigil.ofChar?_eq_none_iff]
    simp

theorem spells_iff {other : Text} : Spells body (parse body).sigil other ↔ other = inner body :=
  ⟨fun h => h.unique (spells_inner body), fun h => h ▸ spells_inner body⟩

theorem spells_parts_iff (body : Text) :
    Spells body (parse body).sigil
        ((parse body).leading ++ ((parse body).name ++ (parse body).trailing)) ↔
      ((parse body).name = [] → (parse body).leading = []) := by
  rw [spells_iff, parse_eq]
  exact Text.append_parts_iff (inner body)

/-- The parts of a tag make up its body, if the blanks of a tag without a name are counted once. As
they are given, before the name and after it, they make it up just when there is a name or no
blank. -/
theorem parse_parts (body : Text) :
    let tag := parse body
    Spells body tag.sigil
        (tag.leading ++ (tag.name ++ if tag.name = [] then [] else tag.trailing)) ∧
      (tag.name = [] → tag.trailing = tag.leading) ∧
      (Spells body tag.sigil (tag.leading ++ (tag.name ++ tag.trailing)) ↔
        (tag.name = [] → tag.leading = [])) ∧
      tag.name.IsTrimmed ∧ tag.leading.all Text.isBlank = true ∧
      tag.trailing.all Text.isBlank = true ∧
      (tag.sigil = .escaped ↔ ∀ c ∈ body.trimStart.head?, c ∉ Sigil.marks) := by
  intro tag
  obtain ⟨hparts, hsides⟩ := Text.append_parts (inner body)
  exact ⟨spells_iff.2 hparts, hsides, spells_parts_iff body, Text.isTrimmed_trim _,
    List.all_takeWhile, Text.all_isBlank_trailing, sigil_eq_escaped_iff⟩

/-- A section without a name: its one blank is both the leading and the trailing one. -/
theorem not_spells_unnamed :
    let tag := parse "# ".toList
    ¬ Spells "# ".toList tag.sigil (tag.leading ++ (tag.name ++ tag.trailing)) := by
  intro tag
  rw [spells_parts_iff]
  decide

end Tag
end Stencil
