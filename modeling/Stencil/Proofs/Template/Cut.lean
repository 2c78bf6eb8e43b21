import Stencil.Proofs.Template.Laid
import Stencil.Proofs.Template.Nesting

/-!
# Cutting a reading

What comes before a tag is read alike when the source ends there, and what comes after a tag is read
on its own under the pair in effect then. Moving a source moves its tags and changes nothing else.
-/

namespace Stencil

/-- Only a tag that changes the delimiters changes the pair. -/
theorem Token.nextTags_of_not_delimiters {found : Token.Inside} {closing rest : Text}
    {tags next : Tags} (reads : Token.Inside.read? closing rest = some found)
    (changes : Token.nextTags found.kind found.body tags = .ok next)
    (plain : (Tag.parse found.body).sigil ≠ .delimiters) : next = tags := by
  unfold Token.Inside.read? at reads
  split at reads
  · rename_i t ht
    obtain ⟨⟨body, after⟩, -, rfl⟩ := Option.map_eq_some_iff.1 reads
    have hsigil : (Tag.parse (rest.leading ++ '=' :: body ++ ['='])).sigil = .delimiters := by
      rw [Tag.parse, List.append_assoc, List.cons_append,
        (Text.leading_append_cons rest (by decide) _).2]
      rfl
    exact absurd hsigil plain
  all_goals
    obtain ⟨⟨body, after⟩, -, rfl⟩ := Option.map_eq_some_iff.1 reads
    simpa [Token.nextTags] using changes.symm

/-- A tag that opens a section leaves the pair as it is. -/
theorem Token.nextTags_of_opens {found : Token.Inside} {closing rest : Text} {tags next : Tags}
    (reads : Token.Inside.read? closing rest = some found)
    (changes : Token.nextTags found.kind found.body tags = .ok next)
    (opens : (Tag.parse found.body).sigil.opens = true) : next = tags := by
  refine Token.nextTags_of_not_delimiters reads changes fun hs => ?_
  rw [hs] at opens
  cases opens

def Span.shift (k : Nat) (span : Span) : Span :=
  ⟨span.start + k, span.stop + k⟩

/-- The same tag further on in a source. -/
def PlacedTag.shift (k : Nat) (placed : PlacedTag) : PlacedTag :=
  { placed with span := placed.span.shift k }

def Piece.shift (k : Nat) : Piece → Piece
  | .item (.tag placed) => .item (.tag (placed.shift k))
  | piece => piece

namespace Piece

theorem map_shift_consChar (k : Nat) (c : Char) (pieces : List Piece) :
    (consChar c pieces).map (shift k) = consChar c (pieces.map (shift k)) := by
  cases pieces with
  | nil => rfl
  | cons piece pieces =>
    cases piece with
    | lineEnd t => rfl
    | item i => cases i <;> rfl

@[simp] theorem map_shift_ofText (k : Nat) (t : Text) : (ofText t).map (shift k) = ofText t := by
  fun_induction ofText t with
  | case1 => rfl
  | case2 t ih => simp [shift, ih]
  | case3 t ih => simp [shift, ih]
  | case4 c t _ _ ih => rw [map_shift_consChar, ih]

theorem tags_map_shift (k : Nat) (pieces : List Piece) :
    tags (pieces.map (shift k)) = (tags pieces).map (PlacedTag.shift k) := by
  induction pieces with
  | nil => rfl
  | cons piece pieces ih =>
    cases piece with
    | lineEnd t => simpa [shift] using ih
    | item i =>
      cases i with
      | text t => simpa [shift] using ih
      | tag placed => simpa [shift] using ih

/-- The first tag after a text is this one, or comes before it. -/
theorem eq_or_of_append_tag {t : Text} {pieces front back : List Piece} {found placed : PlacedTag}
    (h : front ++ .item (.tag placed) :: back = ofText t ++ .item (.tag found) :: pieces) :
    (front = ofText t ∧ placed = found ∧ back = pieces) ∨
      ∃ mid, front = ofText t ++ .item (.tag found) :: mid ∧
        pieces = mid ++ .item (.tag placed) :: back := by
  rcases List.append_eq_append_iff.1 h with ⟨mid, hm, hb⟩ | ⟨mid, rfl, hb⟩
  · cases mid with
    | nil =>
      simp only [List.append_nil, List.nil_append, List.cons.injEq, Piece.item.injEq,
        Item.tag.injEq] at hm hb
      exact .inl ⟨hm.symm, hb.1, hb.2⟩
    | cons piece mid =>
      obtain ⟨rfl, -⟩ := List.cons.inj hb
      have := congrArg tags hm
      simp at this
  · cases mid with
    | nil =>
      simp only [List.nil_append, List.cons.injEq, Piece.item.injEq, Item.tag.injEq] at hb
      exact .inl ⟨List.append_nil _, hb.1.symm, hb.2.symm⟩
    | cons piece mid =>
      obtain ⟨rfl, hmid⟩ := List.cons.inj hb
      exact .inr ⟨mid, rfl, hmid⟩

end Piece

namespace Reading

variable {tags : Tags} {n : Nat} {t : Text} {pieces front back : List Piece} {placed : PlacedTag}

/-- The text before a tag is read into the pieces before it, and the text after a tag into those
after it. -/
theorem cut (h : Reading tags n t (front ++ .item (.tag placed) :: back)) :
    ∃ u raw v next, t = u ++ (raw ++ v) ∧
      placed.span = ⟨n + u.size, n + u.size + raw.size⟩ ∧ Reading tags n u front ∧
      Reading next placed.span.stop v back ∧
      (placed.tag.sigil.opens = true → next = placed.tags) := by
  generalize hp : front ++ .item (.tag placed) :: back = pieces at h
  induction h generalizing front with
  | text valid no_opening =>
    have := congrArg Piece.tags hp
    simp at this
  | @tag tags next start rest before inside found pieces valid opens reads changes after ih =>
    have hrest : rest = before ++ (tags.opening ++ (found.body ++ (found.closing ++ found.rest))) := by
      rw [Text.eq_append_of_breakAt? opens, Token.Inside.append_of_read? reads]
    rcases Piece.eq_or_of_append_tag hp with ⟨rfl, rfl, rfl⟩ | ⟨mid, rfl, rfl⟩
    · refine ⟨before, tags.opening ++ (found.body ++ found.closing), found.rest, next,
        by simpa using hrest, by simp [Nat.add_assoc],
        .text valid (Text.breakAt?_before valid.opening_ne_nil opens), after, ?_⟩
      exact Token.nextTags_of_opens reads changes
    · obtain ⟨u, raw, v, next', hr, hspan, hu, hv, hnext⟩ := ih rfl
      have hreads := Token.Inside.read?_append_other valid.2 reads u
      refine ⟨before ++ (tags.opening ++ (found.body ++ (found.closing ++ u))), raw, v, next', ?_, ?_,
        ?_, hv, hnext⟩
      · rw [hrest, hr]
        simp
      · rw [hspan]
        simp [Nat.add_assoc]
      · exact @Reading.tag _ _ _ _ _ _ { found with rest := u } _ valid
          (Text.breakAt?_append_other opens _) hreads changes hu

/-- A text is read alike further on. -/
theorem unshift {k : Nat} (h : Reading tags (n + k) t pieces) :
    ∃ moved, pieces = moved.map (Piece.shift k) ∧ Reading tags n t moved := by
  generalize hm : n + k = m at h
  induction h generalizing n with
  | text valid no_opening => exact ⟨_, by simp, .text valid no_opening⟩
  | @tag tags next start rest before inside found pieces valid opens reads changes after ih =>
    obtain ⟨moved, rfl, hr⟩ := @ih (n + before.size + tags.opening.size + found.body.size +
      found.closing.size) (by omega)
    refine ⟨_, ?_, .tag valid opens reads changes hr⟩
    simp only [List.map_append, Piece.map_shift_ofText, List.map_cons, Piece.shift, PlacedTag.shift,
      Span.shift, ← hm]
    congr 6 <;> omega

/-- The text between two tags, the first of which opens a section, is read on its own under the
pair of that tag. -/
theorem between (h : Reading tags 0 t pieces) {first inner last : List PlacedTag}
    {opener closer : PlacedTag}
    (ht : Piece.tags pieces = first ++ opener :: (inner ++ closer :: last))
    (opens : opener.tag.sigil.opens = true) :
    ∃ before raw after moved, t = before ++ (raw ++ after) ∧ opener.span.stop = before.size ∧
      closer.span.start = before.size + raw.size ∧ Reading opener.tags 0 raw moved ∧
      inner = (Piece.tags moved).map (PlacedTag.shift before.size) := by
  obtain ⟨front, rest, rfl, -, hrest⟩ := Piece.exists_split ht
  obtain ⟨mid, back, rfl, rfl, -⟩ := Piece.exists_split hrest
  obtain ⟨u, opening, v, next, rfl, hopener, -, hv, hnext⟩ := h.cut
  obtain rfl := hnext opens
  obtain ⟨raw, closing, after, -, rfl, hcloser, hraw, -, -⟩ := hv.cut
  have hstop : opener.span.stop = (u ++ opening).size := by
    rw [hopener]
    simp
  have hraw' : Reading opener.tags (0 + (u ++ opening).size) raw mid := by
    rwa [Nat.zero_add, ← hstop]
  obtain ⟨moved, rfl, hmoved⟩ := hraw'.unshift
  refine ⟨u ++ opening, raw, closing ++ after, moved, by simp, hstop, ?_, hmoved,
    Piece.tags_map_shift _ _⟩
  rw [hcloser, hstop]

end Reading
end Stencil
