import Stencil.Proofs.Template.Append
import Stencil.Proofs.Template.Atoms

/-!
# Where sources meet

A source goes on with any other as if this were read on its own, under the pair in effect by then,
unless an opening delimiter stands across the place where they meet. Runs of text and line ends may
join there, characters do not.
-/

namespace Stencil

namespace Piece

theorem atoms_consChar {c : Char} (no_feed : c ≠ '\n') (pieces : List Piece) :
    (consChar c pieces).flatMap atoms = ofChar c :: pieces.flatMap atoms := by
  have hchar : ofChar c = .item (.text [c]) := if_neg no_feed
  unfold consChar
  split
  · rfl
  · simp [atoms, outside, hchar]

/-- The characters of a text are its pieces one by one. -/
@[simp] theorem atoms_ofText (t : Text) : (ofText t).flatMap atoms = t.map ofChar := by
  fun_induction ofText t with
  | case1 => rfl
  | case2 t ih => simpa [atoms, outside] using ih
  | case3 t ih => simpa [atoms, outside] using ih
  | case4 c t _ no_feed ih => rw [atoms_consChar no_feed, ih, List.map_cons]

theorem tags_flatMap_atoms (pieces : List Piece) : tags (pieces.flatMap atoms) = tags pieces := by
  have hchar : ∀ t : Text, tags (t.map ofChar) = [] := by
    intro t
    rw [tags, List.filterMap_map, List.filterMap_eq_nil_iff]
    intro c _
    simp only [Function.comp_apply, ofChar]
    split <;> rfl
  induction pieces with
  | nil => rfl
  | cons piece pieces ih =>
    rw [List.flatMap_cons, tags_append, ih]
    cases piece with
    | lineEnd t => simp [atoms, hchar]
    | item item =>
      cases item with
      | text t => simp [atoms, hchar]
      | tag placed => rfl

end Piece

/-- What is not empty has characters. -/
theorem Laid.eq_nil_of_atoms {n : Nat} {t : Text} {pieces : List Piece} (h : Laid n t pieces)
    (none : pieces.flatMap Piece.atoms = []) : t = [] := by
  cases h with
  | nil => rfl
  | text ne_nil => simp [Piece.atoms, Piece.outside, ne_nil] at none
  | lineEnd terminator =>
    rcases terminator with rfl | rfl <;> simp [Piece.atoms, Piece.outside] at none
  | tag => simp [Piece.atoms] at none

namespace Reading

variable {tags next : Tags} {n : Nat} {source t front back : Text} {first pieces : List Piece}
  {placed : PlacedTag}

/-- Without a change of delimiters the pair stays as it is. -/
theorem scanFrom_tags (h : Reading tags n t pieces)
    (plain : ∀ placed ∈ Piece.tags pieces, placed.tag.sigil ≠ .delimiters) :
    (Tokens.scanFrom source tags n t).tags = tags := by
  induction h with
  | text valid no_opening => rw [Tokens.scanFrom_of_none valid no_opening]
  | tag valid opens reads changes _ ih =>
    simp only [Piece.tags_append, Piece.tags_ofText, Piece.tags_tag, List.nil_append,
      List.forall_mem_cons] at plain
    obtain rfl := Token.nextTags_of_not_delimiters reads changes plain.1
    rw [Tokens.scanFrom_of_tag valid opens reads changes]
    exact ih plain.2

/-- A text that holds no tag goes on with what follows. -/
theorem exists_append_text_iff {all : List Piece} (valid : tags.Valid)
    (none : Text.breakAt? tags.opening front = none)
    (apart : ¬ Text.Straddles tags.opening front back) :
    (∃ pieces, Reading tags n (front ++ back) pieces ∧ pieces.flatMap Piece.atoms = all) ↔
      ∃ more, Reading tags (n + front.size) back more ∧
        front.map Piece.ofChar ++ more.flatMap Piece.atoms = all := by
  have hbreak := Text.breakAt?_append_of_not_straddles apart none
  constructor
  · rintro ⟨pieces, h, rfl⟩
    cases h with
    | text valid no_opening =>
      rw [hbreak, Option.map_eq_none_iff] at no_opening
      exact ⟨_, .text valid no_opening, by simp⟩
    | tag valid opens reads changes after =>
      rw [hbreak] at opens
      obtain ⟨⟨before, inside⟩, hs, hcut⟩ := Option.map_eq_some_iff.1 opens
      cases hcut
      rw [Text.size_append, ← Nat.add_assoc] at after ⊢
      exact ⟨_, .tag valid hs reads changes after, by simp⟩
  · rintro ⟨more, h, rfl⟩
    cases h with
    | text valid no_opening =>
      exact ⟨_, .text valid (by rw [hbreak, no_opening]; rfl), by simp⟩
    | @tag _ _ _ _ before inside _ _ _ opens reads changes after =>
      have hopens : Text.breakAt? tags.opening (front ++ back) = some (front ++ before, inside) := by
        rw [hbreak, opens]
        rfl
      have hsize : n + front.size + before.size = n + (front ++ before).size := by
        rw [Text.size_append, Nat.add_assoc]
      rw [hsize] at after ⊢
      exact ⟨_, .tag valid hopens reads changes after, by simp⟩

/-- A source that can be read goes on with what follows. -/
theorem exists_append_iff {all : List Piece} (h : Reading tags n front first)
    (apart : ¬ Text.Straddles (Tokens.scanFrom source tags n front).tags.opening front back) :
    (∃ pieces, Reading tags n (front ++ back) pieces ∧ pieces.flatMap Piece.atoms = all) ↔
      ∃ more, Reading (Tokens.scanFrom source tags n front).tags (n + front.size) back more ∧
        first.flatMap Piece.atoms ++ more.flatMap Piece.atoms = all := by
  induction h generalizing all with
  | text valid no_opening =>
    rw [Tokens.scanFrom_of_none valid no_opening] at apart ⊢
    rw [exists_append_text_iff valid no_opening apart, Piece.atoms_ofText]
  | @tag tags next start rest before inside found first valid opens reads changes after ih =>
    rw [Tokens.scanFrom_of_tag valid opens reads changes] at apart ⊢
    have hrest := Text.eq_append_of_breakAt? opens
    have hinside := Token.Inside.append_of_read? reads
    have hsuffix : found.rest <:+ rest := by
      refine ⟨before ++ (tags.opening ++ (found.body ++ found.closing)), ?_⟩
      rw [hrest, hinside]
      simp
    have hopens := Text.breakAt?_append_other opens (inside ++ back)
    have hreads := Token.Inside.read?_append_other valid.2 reads (found.rest ++ back)
    have hwhole : rest ++ back = before ++ (tags.opening ++ (inside ++ back)) := by simp [hrest]
    have hafter : inside ++ back = found.body ++ (found.closing ++ (found.rest ++ back)) := by
      rw [hinside]
      simp
    have hsize : start + before.size + tags.opening.size + found.body.size + found.closing.size +
        found.rest.size = start + rest.size := by
      rw [hrest, hinside]
      simp only [Text.size_append]
      omega
    rw [hafter] at hopens
    have hih := fun all => @ih all fun across => apart (across.of_suffix hsuffix)
    rw [hsize] at hih
    rw [hwhole, hafter]
    simp only [iff_of_tag valid hopens hreads changes]
    constructor
    · rintro ⟨_, ⟨more, rfl, hmore⟩, rfl⟩
      obtain ⟨others, hothers, hatoms⟩ := (hih _).1 ⟨more, hmore, rfl⟩
      exact ⟨others, hothers, by simp [← hatoms]⟩
    · rintro ⟨others, hothers, rfl⟩
      obtain ⟨more, hmore, hatoms⟩ := (hih _).2 ⟨others, hothers, rfl⟩
      exact ⟨_, ⟨more, rfl, hmore⟩, by simp [hatoms]⟩

/-- A tag of a text, between what is read on its own and what is read under the pair of the tag, if
it can be. -/
structure Around (source : Text) (tags : Tags) (n : Nat) (t : Text) (placed : PlacedTag)
    (front raw back : Text) (first : List Piece) : Prop where
  eq : t = front ++ (raw ++ back)
  span : placed.span = ⟨n + front.size, n + front.size + raw.size⟩
  reads : Reading tags n front first
  pair : (Tokens.scanFrom source tags n front).tags = placed.tags
  reads_iff : ∀ pieces, Reading tags n t pieces ↔
    ∃ more, pieces = first ++ .item (.tag placed) :: more ∧
      Reading placed.tags placed.span.stop back more

section
variable {before inside : Text} {found : Token.Inside} (valid : tags.Valid)
  (opens : Text.breakAt? tags.opening t = some (before, inside))
  (reads : Token.Inside.read? tags.closing inside = some found)
include valid opens reads

/-- The first tag is between the text before it and the rest. -/
theorem around_first (changes : Token.nextTags found.kind found.body tags = .ok tags) :
    Around source tags n t ⟨.parse found.body, ⟨n + before.size, n + before.size +
      tags.opening.size + found.body.size + found.closing.size⟩, tags⟩ before
      (tags.opening ++ (found.body ++ found.closing)) found.rest (Piece.ofText before) := by
  have hnone := Text.breakAt?_before valid.opening_ne_nil opens
  refine ⟨?_, ?_, .text valid hnone, ?_, fun pieces => ?_⟩
  · rw [Text.eq_append_of_breakAt? opens, Token.Inside.append_of_read? reads]
    simp
  · simp [Nat.add_assoc]
  · rw [Tokens.scanFrom_of_none valid hnone]
  · exact iff_of_tag valid opens reads changes

/-- What is before a later tag starts with the first tag. -/
theorem Around.later (changes : Token.nextTags found.kind found.body tags = .ok next)
    (h : Around source next (n + before.size + tags.opening.size + found.body.size +
      found.closing.size) found.rest placed front raw back first) :
    ∃ all, Around source tags n t placed
      (before ++ (tags.opening ++ (found.body ++ (found.closing ++ front)))) raw back all := by
  have hopens := Text.breakAt?_append_other opens (found.body ++ (found.closing ++ front))
  have hreads := Token.Inside.read?_append_other valid.2 reads front
  refine ⟨_, ?_, ?_, .tag valid hopens hreads changes h.reads, ?_, fun pieces => ?_⟩
  · rw [Text.eq_append_of_breakAt? opens, Token.Inside.append_of_read? reads, h.eq]
    simp
  · rw [h.span]
    simp [Nat.add_assoc]
  · rw [Tokens.scanFrom_of_tag valid hopens hreads changes]
    exact h.pair
  · rw [iff_of_tag valid opens reads changes]
    simp only [h.reads_iff]
    constructor
    · rintro ⟨_, rfl, more, rfl, hmore⟩
      exact ⟨more, by simp, hmore⟩
    · rintro ⟨more, rfl, hmore⟩
      exact ⟨_, by simp, more, rfl, hmore⟩

end

theorem exists_around (h : placed ∈ Piece.tags (Tokens.read source tags n t).1)
    (plain : placed.tag.sigil ≠ .delimiters) :
    ∃ front raw back first, Around source tags n t placed front raw back first := by
  refine Tokens.scanFrom_induction source (motive := fun tags n t tokens =>
    placed ∈ Piece.tags (Piece.ofTokens source tokens.failure none none tags tokens.list).1 →
      ∃ front raw back first, Around source tags n t placed front raw back first)
    ?invalid ?text ?malformed ?tag tags n t h
  case invalid =>
    intro tags n t invalid h
    simp [Piece.ofTokens] at h
  case text =>
    intro tags n t valid no_opening h
    rw [← List.append_nil (Token.run n t), Piece.ofTokens_run] at h
    simp [Piece.ofTokens] at h
  case malformed =>
    intro tags n t before inside fault valid opens _ h
    rw [Piece.ofTokens_run] at h
    simp [Piece.ofTokens] at h
  case tag =>
    intro tags n t before inside found next tokens valid opens reads changes ih h
    rw [Piece.ofTokens_prepend (Token.Inside.kind_of_read? reads) changes, Piece.tags_append,
      Piece.tags_ofText, List.nil_append, Piece.tags_tag, List.mem_cons] at h
    rcases h with rfl | h
    · obtain rfl := Token.nextTags_of_not_delimiters reads changes plain
      exact ⟨_, _, _, _, around_first valid opens reads changes⟩
    · obtain ⟨front, raw, back, first, around⟩ := ih h
      obtain ⟨all, hall⟩ := around.later valid opens reads changes
      exact ⟨_, _, _, all, hall⟩

end Reading
end Stencil
