import Stencil.Proofs.Template.Reading

/-!
# Pieces in place

A reading loses nothing: its pieces cover the text one after the other, each where it stands. A run
of text holds no line end and is not cut inside of one, and a tag begins and ends with a character
that is no blank.
-/

namespace Stencil

/-- A text with a character that is no blank at each end. -/
def Solid (t : Text) : Prop :=
  (∃ c rest, t = c :: rest ∧ Text.isBlank c = false) ∧
    ∃ front c, t = front ++ [c] ∧ Text.isBlank c = false

/-- A text that does not end inside a line end when this follows. -/
def EndsWhole (t rest : Text) : Prop :=
  ∀ front, t = front ++ ['\r'] → rest.head? ≠ some '\n'

theorem EndsWhole.append {t s rest : Text} (h : EndsWhole t s) (hs : s = [] → rest = []) :
    EndsWhole t (s ++ rest) := by
  intro front hf
  cases s with
  | nil => simp [hs rfl]
  | cons c s => simpa using h front hf

/-- From a byte offset on, a text is made of these pieces. -/
inductive Laid : Nat → Text → List Piece → Prop
  | nil {n : Nat} : Laid n [] []
  | text {n : Nat} {t rest : Text} {pieces : List Piece} (ne_nil : t ≠ []) (no_feed : '\n' ∉ t)
    (whole : EndsWhole t rest) (after : Laid (n + t.size) rest pieces) :
    Laid n (t ++ rest) (.item (.text t) :: pieces)
  | lineEnd {n : Nat} {t rest : Text} {pieces : List Piece}
    (terminator : t = ['\n'] ∨ t = ['\r', '\n']) (after : Laid (n + t.size) rest pieces) :
    Laid n (t ++ rest) (.lineEnd t :: pieces)
  | tag {n : Nat} {raw rest : Text} {placed : PlacedTag} {pieces : List Piece} (solid : Solid raw)
    (span : placed.span = ⟨n, n + raw.size⟩) (after : Laid (n + raw.size) rest pieces) :
    Laid n (raw ++ rest) (.item (.tag placed) :: pieces)

namespace Piece

def placed? : Piece → Option PlacedTag
  | .item i => Line.placed? i
  | .lineEnd _ => none

/-- The tags among pieces. -/
def tags (pieces : List Piece) : List PlacedTag :=
  pieces.filterMap placed?

@[simp] theorem tags_append (front back : List Piece) :
    tags (front ++ back) = tags front ++ tags back :=
  List.filterMap_append

@[simp] theorem tags_nil : tags [] = [] := rfl

@[simp] theorem tags_text (t : Text) (pieces : List Piece) :
    tags (.item (.text t) :: pieces) = tags pieces := rfl

@[simp] theorem tags_lineEnd (t : Text) (pieces : List Piece) :
    tags (.lineEnd t :: pieces) = tags pieces := rfl

@[simp] theorem tags_tag (placed : PlacedTag) (pieces : List Piece) :
    tags (.item (.tag placed) :: pieces) = placed :: tags pieces := rfl

theorem tags_consChar (c : Char) (pieces : List Piece) : tags (consChar c pieces) = tags pieces := by
  unfold consChar
  split <;> simp

/-- Where the tags can be parted, the pieces can. -/
theorem exists_split {pieces : List Piece} {front back : List PlacedTag}
    {placed : PlacedTag} (h : tags pieces = front ++ placed :: back) :
    ∃ before after, pieces = before ++ .item (.tag placed) :: after ∧ tags before = front ∧
      tags after = back := by
  obtain ⟨before, rest, rfl, hb, hr⟩ := List.filterMap_eq_append_iff.1 h
  obtain ⟨texts, piece, after, rfl, ht, hp, ha⟩ := List.filterMap_eq_cons_iff.1 hr
  have hpiece : piece = .item (.tag placed) := by
    cases piece with
    | lineEnd t => cases hp
    | item i =>
      cases i with
      | text t => cases hp
      | tag found =>
        cases hp
        rfl
  refine ⟨before ++ texts, after, by simp [hpiece], ?_, ha⟩
  rw [tags_append, tags, tags, hb, List.filterMap_eq_nil_iff.2 ht, List.append_nil]

theorem exists_split_of_mem {pieces : List Piece} {placed : PlacedTag}
    (h : placed ∈ tags pieces) : ∃ front back, pieces = front ++ .item (.tag placed) :: back := by
  obtain ⟨front, back, hp⟩ := List.append_of_mem h
  obtain ⟨before, after, rfl, -, -⟩ := exists_split hp
  exact ⟨before, after, rfl⟩

/-- A text holds no tag. -/
@[simp] theorem tags_ofText (t : Text) : tags (ofText t) = [] := by
  fun_induction ofText t with
  | case1 => rfl
  | case2 t ih => simpa using ih
  | case3 t ih => simpa using ih
  | case4 c t _ _ ih => rw [tags_consChar, ih]

end Piece

namespace Laid

variable {n : Nat} {s t rest : Text} {pieces front back : List Piece} {placed : PlacedTag}

/-- A character that ends no line joins the run after it. -/
theorem consChar {c : Char} (h : Laid (n + c.utf8Size) rest pieces) (no_feed : c ≠ '\n')
    (whole : c = '\r' → rest.head? ≠ some '\n') :
    Laid n (c :: rest) (Piece.consChar c pieces) := by
  have hsingle : Laid n ([c] ++ rest) (.item (.text [c]) :: pieces) := by
    refine .text (by simp) (by simpa using no_feed.symm) ?_ h
    intro front hf
    cases front with
    | nil => exact whole (by simpa using hf)
    | cons d front => simp at hf
  cases h with
  | nil => exact hsingle
  | lineEnd terminator after => exact hsingle
  | tag solid span after => exact hsingle
  | @text n t rest pieces ne_nil no_feed' whole' after =>
    change Laid n ((c :: t) ++ rest) (.item (.text (c :: t)) :: pieces)
    refine .text (by simp) ?_ ?_ (by simpa [Nat.add_assoc] using after)
    · simpa using ⟨no_feed.symm, no_feed'⟩
    · intro front hf
      cases front with
      | nil => simp_all
      | cons d front => exact whole' front (by simpa using (List.cons.inj hf).2)

theorem ofText (n : Nat) (t : Text) : Laid n t (Piece.ofText t) := by
  fun_induction Piece.ofText t generalizing n with
  | case1 => exact .nil
  | case2 t ih => exact .lineEnd (t := ['\r', '\n']) (.inr rfl) (ih _)
  | case3 t ih => exact .lineEnd (t := ['\n']) (.inl rfl) (ih _)
  | case4 c t whole no_feed ih =>
    refine consChar (ih _) (fun hc => no_feed hc) ?_
    rintro rfl ht
    cases t with
    | nil => simp at ht
    | cons d t => exact whole t rfl (by simpa using ht)

/-- Pieces can follow pieces unless they cut a line end in two. -/
theorem append (h : Laid n s front) (ht : Laid (n + s.size) t back) (whole : EndsWhole s t) :
    Laid n (s ++ t) (front ++ back) := by
  have htail : ∀ {u rest : Text}, EndsWhole (u ++ rest) t → EndsWhole rest t :=
    fun {u rest} hw front hf => hw (u ++ front) (by rw [hf, List.append_assoc])
  induction h with
  | nil => simpa using ht
  | @text n u rest pieces ne_nil no_feed whole' after ih =>
    rw [List.append_assoc, List.cons_append]
    refine .text ne_nil no_feed ?_ (ih (by simpa [Nat.add_assoc] using ht) (htail whole))
    cases rest with
    | nil => simpa using whole
    | cons c rest => exact whole'.append (by simp)
  | lineEnd terminator after ih =>
    rw [List.append_assoc, List.cons_append]
    exact .lineEnd terminator (ih (by simpa [Nat.add_assoc] using ht) (htail whole))
  | tag solid span after ih =>
    rw [List.append_assoc, List.cons_append]
    exact .tag solid span (ih (by simpa [Nat.add_assoc] using ht) (htail whole))

theorem eq_nil (h : Laid n [] pieces) : pieces = [] := by
  generalize ht : ([] : Text) = t at h
  cases h with
  | nil => rfl
  | text ne_nil no_feed whole after => exact absurd (List.append_eq_nil_iff.1 ht.symm).1 ne_nil
  | lineEnd terminator after => rcases terminator with rfl | rfl <;> simp at ht
  | tag solid span after =>
    obtain ⟨⟨c, u, rfl, -⟩, -⟩ := solid
    simp at ht

/-- The text of some of the pieces at the front can be cut off. -/
theorem of_append (h : Laid n t (front ++ back)) :
    ∃ u v, t = u ++ v ∧ Laid n u front ∧ Laid (n + u.size) v back := by
  induction front generalizing n t with
  | nil => exact ⟨[], t, rfl, .nil, by simpa using h⟩
  | cons piece front ih =>
    rw [List.cons_append] at h
    cases h with
    | @text n t rest pieces ne_nil no_feed whole after =>
      obtain ⟨u, v, rfl, hu, hv⟩ := ih after
      refine ⟨t ++ u, v, by simp, .text ne_nil no_feed ?_ hu, by simpa [Nat.add_assoc] using hv⟩
      intro front hf
      have := whole front hf
      cases u with
      | nil => simp
      | cons c u => simpa using this
    | @lineEnd n t rest pieces terminator after =>
      obtain ⟨u, v, rfl, hu, hv⟩ := ih after
      exact ⟨t ++ u, v, by simp, .lineEnd terminator hu, by simpa [Nat.add_assoc] using hv⟩
    | @tag n raw rest placed pieces solid span after =>
      obtain ⟨u, v, rfl, hu, hv⟩ := ih after
      exact ⟨raw ++ u, v, by simp, .tag solid span hu, by simpa [Nat.add_assoc] using hv⟩

/-- The text can be cut around each of its tags. -/
theorem cut (h : Laid n t (front ++ .item (.tag placed) :: back)) :
    ∃ u raw v, t = u ++ (raw ++ v) ∧ Laid n u front ∧ Solid raw ∧
      placed.span = ⟨n + u.size, n + u.size + raw.size⟩ ∧ Laid (n + u.size + raw.size) v back := by
  obtain ⟨u, w, rfl, hu, hw⟩ := h.of_append
  cases hw with
  | tag solid span after => exact ⟨u, _, _, rfl, hu, solid, span, after⟩

/-- Each tag stands inside the text. -/
theorem span_of_mem (h : Laid n t pieces) (hp : placed ∈ Piece.tags pieces) :
    n ≤ placed.span.start ∧ placed.span.start < placed.span.stop ∧
      placed.span.stop ≤ n + t.size := by
  induction h with
  | nil => simp at hp
  | text ne_nil no_feed whole after ih =>
    have := ih (by simpa using hp)
    simp only [Text.size_append]
    omega
  | lineEnd terminator after ih =>
    have := ih (by simpa using hp)
    simp only [Text.size_append]
    omega
  | @tag n raw rest found pieces solid span after ih =>
    rw [Piece.tags_tag, List.mem_cons] at hp
    simp only [Text.size_append]
    rcases hp with rfl | hp
    · obtain ⟨⟨c, u, rfl, -⟩, -⟩ := solid
      have := c.utf8Size_pos
      simp only [span, Text.size_cons]
      omega
    · have := ih hp
      omega

end Laid

/-- A tag begins and ends with its delimiters. -/
theorem Tags.Valid.solid {tags : Tags} (valid : tags.Valid) {rest : Text} {found : Token.Inside}
    (reads : Token.Inside.read? tags.closing rest = some found) :
    Solid (tags.opening ++ (found.body ++ found.closing)) := by
  constructor
  · obtain ⟨c, u, hc⟩ := List.exists_cons_of_ne_nil valid.opening_ne_nil
    exact ⟨c, _, by rw [hc]; rfl, valid.1.2 c (by simp [hc])⟩
  · obtain ⟨u, c, hc⟩ : ∃ u c, tags.closing = u ++ [c] :=
      ⟨_, _, (List.dropLast_concat_getLast valid.closing_ne_nil).symm⟩
    have hblank : Text.isBlank c = false := valid.2.2 c (by simp [hc])
    rcases Token.Inside.closing_of_read? reads with h | h
    · exact ⟨tags.opening ++ (found.body ++ u), c, by simp [h, hc], hblank⟩
    · exact ⟨tags.opening ++ (found.body ++ '}' :: u), c, by simp [h, hc], hblank⟩

/-- No line end goes on into a tag. -/
theorem Solid.endsWhole {t : Text} (h : Solid t) (s rest : Text) : EndsWhole s (t ++ rest) := by
  obtain ⟨⟨c, u, rfl, hc⟩, -⟩ := h
  rintro front - hn
  obtain rfl : c = '\n' := by simpa using hn
  revert hc
  decide

/-- What is read is in place. -/
theorem Reading.laid {tags : Tags} {start : Nat} {rest : Text} {pieces : List Piece}
    (h : Reading tags start rest pieces) : Laid start rest pieces := by
  induction h with
  | text valid no_opening => exact .ofText _ _
  | @tag tags next start rest before inside found pieces valid opens reads changes after ih =>
    have hsolid := valid.solid reads
    have hrest : rest = before ++
        ((tags.opening ++ (found.body ++ found.closing)) ++ found.rest) := by
      rw [Text.eq_append_of_breakAt? opens, Token.Inside.append_of_read? reads]
      simp
    rw [hrest]
    refine (Laid.ofText _ _).append (.tag hsolid ?_ ?_) (hsolid.endsWhole _ _)
    · simp [Nat.add_assoc]
    · simpa [Nat.add_assoc] using ih

end Stencil
