import Stencil.Proofs.Template.PaddedLine

/-!
# Trees of padded sources

Padding the lines of a source changes neither its tags nor which of them stand alone. The first tag
of a line that is padded gets the padding before its own, and all other tags keep what they have.
-/

namespace Stencil

/-- What becomes of the indentation that a tag is told when its source is padded: the padding comes
before it on each line that is padded, but for tags that others come before on their line. -/
def PlacedTag.Reindented (padding : Text) (first : Bool) (source : Text) (all : List PlacedTag)
    (placed : PlacedTag) (indent again : Indent) : Prop :=
  ∃ front between, placed.StartsAfter source (all.map span) front between ∧
    if placed.Follows all front.size then indent = default ∧ again = default
    else if front = [] ∧ first = false then again = indent
    else again = ⟨padding ++ indent.padding, indent.firstLine⟩

/-- A tag of a source with its indentation, and the same tag of the padded source. -/
structure Mark.Padded (padding : Text) (first : Bool) (source other : Text) (all : List PlacedTag)
    (mark again : Mark) : Prop where
  same : PlacedTag.Padded padding mark.1 again.1
  standalone : again.1.Standalone other ↔ mark.1.Standalone source
  reindented : mark.1.Reindented padding first source all mark.2 again.2

theorem Indent.inline_append {padding : Text} (blank : Line.isBlank padding = true) (t : Text) :
    inline (padding ++ t) = ⟨padding ++ (inline t).padding, false⟩ := by
  have hkept : padding.filter (fun c => c != '\r' && c != '\n') = padding := by
    rw [List.filter_eq_self]
    intro c hc
    obtain ⟨-, hfeed, hreturn, -⟩ := Line.of_mem_blank blank hc
    simp [hfeed, hreturn]
  have hcolumns : padding.map (fun c => if c = '\t' then '\t' else ' ') = padding := by
    refine (List.map_congr_left fun c hc => ?_).trans (List.map_id padding)
    rcases Line.isBlank_iff.1 blank c hc with rfl | rfl <;> rfl
  simp [inline, hkept, hcolumns]

namespace Line

variable {padding : Text} {first : Bool}

section

variable {line other : Line} {u v rest s t more : Text} {pre post : List Piece}

section

variable (hb : Laid 0 u pre) (hs : line.Stands u v rest) (ha : Laid (u.size + v.size) rest post)
include hb hs ha

/-- The first tag of a line is told the padding if the line is padded. -/
theorem Stands.reindented_first {placed : PlacedTag} {later : List PlacedTag} {indent again : Indent}
    (htags : line.items.filterMap placed? = placed :: later)
    (hagain : again = if u = [] ∧ first = false then indent
      else ⟨padding ++ indent.padding, indent.firstLine⟩) :
    placed.Reindented padding first (u ++ (v ++ rest)) (line.allTags pre post) indent again := by
  obtain ⟨before, after, hi, hnone⟩ := @exists_cut _ [] later placed htags
  obtain ⟨between, hstarts, -⟩ := Line.Stands.startsAfter hb hs ha hi
  refine ⟨u, between, hstarts, ?_⟩
  have hfollows := (Line.Stands.follows_iff hb hs ha hi).not.2 (not_not.2 hnone)
  rw [if_neg hfollows, hagain]
  by_cases hkept : u = [] ∧ first = false
  · rw [if_pos hkept, if_pos hkept]
  · rw [if_neg hkept, if_neg hkept]

/-- The other tags of a line are told nothing. -/
theorem Stands.reindented_later {placed : PlacedTag} {front back : List PlacedTag}
    (htags : line.items.filterMap placed? = front ++ placed :: back) (ne_nil : front ≠ []) :
    placed.Reindented padding first (u ++ (v ++ rest)) (line.allTags pre post) default default := by
  obtain ⟨before, after, hi, hsome⟩ := exists_cut htags
  obtain ⟨between, hstarts, -⟩ := Line.Stands.startsAfter hb hs ha hi
  refine ⟨u, between, hstarts, ?_⟩
  rw [if_pos ((Line.Stands.follows_iff hb hs ha hi).2 (hsome ▸ ne_nil))]
  exact ⟨rfl, rfl⟩

end

/-- The tags of a line and those of the same line in a padded source. -/
theorem Stands.marks_padded (blank : isBlank padding = true)
    (htags : List.Forall₂ (PlacedTag.Padded padding) (line.items.filterMap placed?)
      (other.items.filterMap placed?))
    (hlone : (lone? other.items).isSome = (lone? line.items).isSome)
    (hpreceding : preceding other.items =
      (if u = [] ∧ first = false then [] else padding) ++ preceding line.items)
    (hb : Laid 0 u pre) (hs : line.Stands u v rest) (ha : Laid (u.size + v.size) rest post)
    (ho : other.Stands s t more) :
    List.Forall₂ (Mark.Padded padding first (u ++ (v ++ rest)) (s ++ (t ++ more))
      (line.allTags pre post)) (marks line.items) (marks other.items) := by
  have hstandalone : ∀ placed ∈ line.items.filterMap placed?,
      ∀ again ∈ other.items.filterMap placed?,
        again.Standalone (s ++ (t ++ more)) ↔ placed.Standalone (u ++ (v ++ rest)) := by
    intro placed hp again hq
    rw [hs.standalone_iff_isSome hp, ho.standalone_iff_isSome hq, hlone]
  rw [marks, marks, hlone, hpreceding]
  generalize hone : line.items.filterMap placed? = one at htags hstandalone
  generalize other.items.filterMap placed? = two at htags hstandalone
  cases htags with
  | nil => exact .nil
  | @cons placed again later others same hlater =>
    refine .cons ⟨same, hstandalone _ (List.mem_cons_self ..) _ (List.mem_cons_self ..), ?_⟩ ?_
    · refine Stands.reindented_first hb hs ha hone ?_
      by_cases hkept : u = [] ∧ first = false
      · rw [if_pos hkept, if_pos hkept, List.nil_append]
      · rw [if_neg hkept, if_neg hkept]
        split
        · rfl
        · exact Indent.inline_append blank _
    · rw [List.forall₂_map_left_iff, List.forall₂_map_right_iff]
      obtain ⟨hlength, hsame⟩ := List.forall₂_iff_zip.1 hlater
      refine List.forall₂_iff_zip.2 ⟨hlength, fun {p q} hpair => ?_⟩
      obtain ⟨hp, hq⟩ := List.of_mem_zip hpair
      obtain ⟨front, back, hsplit⟩ := List.append_of_mem hp
      rw [hsplit] at hone
      exact ⟨hsame hpair, hstandalone _ (List.mem_cons_of_mem _ hp) _ (List.mem_cons_of_mem _ hq),
        Stands.reindented_later hb hs ha (show _ = (placed :: front) ++ p :: back from hone) (by simp)⟩

variable {fresh : Bool}

theorem Padded.marks (blank : isBlank padding = true) (h : Padded padding fresh line other)
    (hfresh : fresh = true ↔ first = true ∨ u ≠ []) (hb : Laid 0 u pre)
    (hs : line.Stands u v rest) (ha : Laid (u.size + v.size) rest post)
    (ho : other.Stands s t more) :
    List.Forall₂ (Mark.Padded padding first (u ++ (v ++ rest)) (s ++ (t ++ more))
      (line.allTags pre post)) (Line.marks line.items) (Line.marks other.items) := by
  have hkept : (u = [] ∧ first = false) ↔ fresh = false := by
    rw [← Bool.not_eq_true fresh, hfresh, not_or, not_not, Bool.not_eq_true, and_comm]
  cases h with
  | same terminator alike =>
    refine Stands.marks_padded blank (filterMap_placed?_padded alike) (isSome_lone?_padded alike)
      ?_ hb hs ha ho
    rw [if_pos (hkept.2 rfl), preceding_padded alike, List.nil_append]
  | bare terminator none =>
    rw [Line.marks, none]
    exact .nil
  | fresh terminator alike =>
    refine Stands.marks_padded blank ?_ ?_ ?_ hb hs ha ho
    · rw [filterMap_placed?_prepend]
      exact filterMap_placed?_padded alike
    · rw [lone?_prepend _ blank]
      exact isSome_lone?_padded alike
    · rw [if_neg (hkept.not.2 (by simp)), preceding_prepend, preceding_padded alike]

end

/-- The tags of lines that stand in a source and of the same lines in the padded source. -/
theorem AllPadded.marks (blank : isBlank padding = true) {fresh : Bool}
    {one two : List Line × List Item} (h : AllPadded padding fresh one two)
    {u v s t : Text} {pre : List Piece} (hfresh : fresh = true ↔ first = true ∨ u ≠ [])
    (hb : Laid 0 u pre) (hu : StartsLine u) (hs : StartsLine s)
    (hv : Laid u.size v (one.1.flatMap pieces ++ one.2.map .item))
    (ht : Laid s.size t (two.1.flatMap pieces ++ two.2.map .item)) :
    List.Forall₂ (Mark.Padded padding first (u ++ v) (s ++ t)
      (Piece.tags (pre ++ (one.1.flatMap pieces ++ one.2.map .item))))
      (one.1.flatMap (fun line => Line.marks line.items) ++ Line.marks one.2)
      (two.1.flatMap (fun line => Line.marks line.items) ++ Line.marks two.2) := by
  induction h generalizing u v s t pre with
  | last same =>
    have hone := stands_of_last hu hv
    have htwo := stands_of_last hs ht
    simpa [allTags, ending] using same.marks blank hfresh hb hone .nil htwo
  | @more fresh line other lines others last end_ same _ ih =>
    -- The line joins what stands before the others; as it is not empty, they are all padded.
    rw [List.flatMap_cons, List.append_assoc] at hv ht
    obtain ⟨v, rest, rfl, hne, hone, hu', hrest⟩ := stands_of_laid hu hv
    obtain ⟨t, more, rfl, -, htwo, hs', hmore⟩ := stands_of_laid hs ht
    have hline := same.marks blank hfresh hb hone (by simpa using hrest) htwo
    have hpieces : Laid u.size v line.pieces := pieces_eq hne ▸ hone.laid
    have hv_ne : u ++ v ≠ [] := by
      intro hnil
      obtain ⟨-, rfl⟩ := List.append_eq_nil_iff.1 hnil
      simpa [Line.pieces] using hpieces.eq_nil
    have hpre : Laid 0 (u ++ v) (pre ++ line.pieces) :=
      hb.append (by simpa using hpieces) ((show StartsLine ([] ++ u) from hu).endsWhole _)
    have hlines := ih (iff_of_true rfl (.inr hv_ne)) hpre hu' hs' hrest hmore
    rw [allTags, ← pieces_eq hne] at hline
    simp only [List.append_assoc] at hline hlines
    simp only [List.flatMap_cons, List.append_assoc]
    exact List.rel_append hline hlines

end Line

theorem Reading.marks_padded {padding source other : Text} {first : Bool} {tags : Tags}
    {pieces others : List Piece} (blank : Line.isBlank padding = true)
    (h : Reading tags 0 source pieces) (ho : Reading tags 0 other others)
    (hp : Piece.Padded padding first pieces others) :
    List.Forall₂ (Mark.Padded padding first source other (Piece.tags pieces))
      (Event.marks (Piece.events pieces)) (Event.marks (Piece.events others)) := by
  have hone := h.laid
  have htwo := ho.laid
  rw [← Line.flatMap_pieces_split pieces] at hone
  rw [← Line.flatMap_pieces_split others] at htwo
  have hmarks := (Line.allPadded_split hp).marks blank (show first = true ↔ first = true ∨ [] ≠ [] by simp)
    .nil .nil .nil hone htwo
  rw [Line.marks_events_pieces, Line.marks_events_pieces]
  simpa only [List.nil_append, Line.flatMap_pieces_split] using hmarks

/-- The tags of a padded source are those of the source, and the same of them stand alone. -/
theorem Reading.tags_padded {padding source other : Text} {first : Bool} {tags : Tags}
    {pieces others : List Piece} (blank : Line.isBlank padding = true)
    (h : Reading tags 0 source pieces) (ho : Reading tags 0 other others)
    (hp : Piece.Padded padding first pieces others) :
    List.Forall₂ (fun found moved => PlacedTag.Padded padding found moved ∧
      (moved.Standalone other ↔ found.Standalone source)) (Piece.tags pieces) (Piece.tags others) := by
  rw [← Piece.tags_events, ← Piece.tags_events, Event.tags_eq_map_marks, Event.tags_eq_map_marks,
    List.forall₂_map_left_iff, List.forall₂_map_right_iff]
  exact (h.marks_padded blank ho hp).imp fun _ _ h => ⟨h.same, h.standalone⟩

/-- Nodes of a source and of the padded source from the same tags, whose nodes go together in turn. A
name that a line starts in is padded with the rest. -/
inductive Node.Padded (padding : Text) (first : Bool) (source : Text) (all others : List PlacedTag) :
    Node → Node → Prop
  | comment (t : Text) :
    Padded padding first source all others (.comment t)
      (.comment ((Indent.mk padding false).apply t))
  | interpolation {placed again : PlacedTag} (escape : Bool)
    (pair : (placed, again) ∈ all.zip others) :
    Padded padding first source all others
      (.interpolation (.parse placed.tag.name) escape placed.span)
      (.interpolation (.parse ((Indent.mk padding false).apply placed.tag.name)) escape again.span)
  | inclusion {placed again : PlacedTag} {indent other : Indent}
    (pair : (placed, again) ∈ all.zip others)
    (reindented : placed.Reindented padding first source all indent other) :
    Padded padding first source all others (.inclusion placed.tag.name indent placed.span)
      (.inclusion ((Indent.mk padding false).apply placed.tag.name) other again.span)
  | block {opener closer opening closing : PlacedTag} (inverted : Bool) {children again : List Node}
    (raw other : Thunk Text) (opens : (opener, opening) ∈ all.zip others)
    (closes : (closer, closing) ∈ all.zip others)
    (within : List.Forall₂ (Padded padding first source all others) (Node.withoutTexts children)
      (Node.withoutTexts again)) :
    Padded padding first source all others
      (.block (.parse opener.tag.name) inverted children raw opener.tags
        ⟨opener.span.start, closer.span.stop⟩)
      (.block (.parse ((Indent.mk padding false).apply opener.tag.name)) inverted again other
        opener.tags ⟨opening.span.start, closing.span.stop⟩)

namespace Nested

variable {padding : Text} {first : Bool} {source other : Text} {all others : List PlacedTag}

/-- The same tags draw the same nodes. -/
theorem draws_padded : Draws source other
    (fun mark again => Mark.Padded padding first source other all mark again ∧
      (mark.1, again.1) ∈ all.zip others)
    (Node.Padded padding first source all others) where
  sigil h := h.1.same.sigil
  name ho hc h := by rw [ho.1.same.name, hc.1.same.name, h]
  single := by
    rintro ⟨placed, indent⟩ ⟨again, j⟩ ⟨⟨⟨hsigil, hname, -⟩, -, hindent⟩, pair⟩
    change again.tag.sigil = placed.tag.sigil at hsigil
    change again.tag.name = _ at hname
    change List.Forall₂ _ (placed.single indent) (again.single j)
    unfold PlacedTag.single
    rw [hsigil, hname]
    cases placed.tag.sigil with
    | escaped => exact .cons (.interpolation true pair) .nil
    | ampersand | triple => exact .cons (.interpolation false pair) .nil
    | inclusion => exact .cons (.inclusion pair hindent) .nil
    | comment => exact .cons (.comment _) .nil
    | block | inverted | close | delimiters => exact .nil
  block := by
    rintro ⟨opener, _⟩ ⟨closer, _⟩ ⟨opening, _⟩ ⟨closing, _⟩ children again
      ⟨⟨⟨hsigil, hname, htags⟩, -, -⟩, opens⟩ ⟨-, closes⟩ h
    change opening.tag.sigil = opener.tag.sigil at hsigil
    change opening.tag.name = _ at hname
    change opening.tags = opener.tags at htags
    change Node.Padded _ _ _ _ _ (opener.enclose source closer children)
      (opening.enclose other closing again)
    unfold PlacedTag.enclose
    rw [hsigil, hname, htags]
    exact .block _ _ _ opens closes h

end Nested

/-- The tags of the lines in pairs. -/
theorem Reading.pairs_padded {padding source other : Text} {first : Bool} {tags : Tags}
    {pieces others : List Piece} (blank : Line.isBlank padding = true)
    (h : Reading tags 0 source pieces) (ho : Reading tags 0 other others)
    (hp : Piece.Padded padding first pieces others) :
    List.Forall₂ (fun mark again => Mark.Padded padding first source other (Piece.tags pieces) mark again ∧
        (mark.1, again.1) ∈ (Piece.tags pieces).zip (Piece.tags others))
      (Event.marks (Piece.events pieces)) (Event.marks (Piece.events others)) := by
  obtain ⟨hlength, hsame⟩ := List.forall₂_iff_zip.1 (h.marks_padded blank ho hp)
  refine List.forall₂_iff_zip.2 ⟨hlength, fun {mark again} hm => ⟨hsame hm, ?_⟩⟩
  rw [← Piece.tags_events, ← Piece.tags_events, Event.tags_eq_map_marks, Event.tags_eq_map_marks,
    List.zip_map]
  exact List.mem_map_of_mem (f := Prod.map Prod.fst Prod.fst) hm

namespace Template

variable {padding : Text} (blank : Line.isBlank padding = true)
include blank

theorem balanced_padded {tags others : List PlacedTag}
    (h : List.Forall₂ (PlacedTag.Padded padding) tags others) :
    Sections.Balanced others ↔ Sections.Balanced tags := by
  have inj : Function.Injective (Indent.mk padding false).apply := by
    intro s t hst
    rw [Indent.apply_rest, Indent.apply_rest] at hst
    exact Indent.pad_inj blank hst
  exact Sections.balanced_iff_of_renamed inj (h.imp fun _ _ same => ⟨same.sigil, same.name⟩)

variable (ne_nil : padding ≠ [])
include ne_nil

theorem exists_compile_padded_iff (first : Bool) (source : Text) (tags : Tags) :
    (∃ again, compile ((Indent.mk padding first).apply source) tags = .ok again) ↔
      ∃ nodes, compile source tags = .ok nodes := by
  rw [exists_compile_iff, exists_compile_iff]
  have hbalance : ∀ {pieces others}, Reading tags 0 source pieces →
      Reading tags 0 ((Indent.mk padding first).apply source) others →
      Piece.Padded padding first pieces others →
      (Sections.Balanced (Piece.tags others) ↔ Sections.Balanced (Piece.tags pieces)) := by
    intro pieces others hr hothers hp
    exact balanced_padded blank ((hr.tags_padded blank hothers hp).imp fun _ _ h => h.1)
  constructor
  · rintro ⟨others, hothers, hb⟩
    obtain ⟨pieces, hr⟩ := hothers.of_padded blank 0
    -- The padded source has only one reading.
    obtain ⟨found, hfound, hp⟩ := hr.padded blank ne_nil first 0
    obtain rfl := hothers.unique hfound
    exact ⟨pieces, hr, (hbalance hr hothers hp).1 hb⟩
  · rintro ⟨pieces, hr, hb⟩
    obtain ⟨others, hothers, hp⟩ := hr.padded blank ne_nil first 0
    exact ⟨others, hothers, (hbalance hr hothers hp).2 hb⟩

/-- A padded source compiles if and only if the source does. Its tags are the same, and the same of
them stand alone; the nodes that come from them are the same, with the indentations that the padding
asks for. Only names that a line starts in are padded. -/
theorem compile_apply (first : Bool) (source : Text) (tags : Tags) :
    ((∃ again, compile ((Indent.mk padding first).apply source) tags = .ok again) ↔
        ∃ nodes, compile source tags = .ok nodes) ∧
      (∀ nodes again, compile source tags = .ok nodes →
        compile ((Indent.mk padding first).apply source) tags = .ok again →
        List.Forall₂ (fun found moved => PlacedTag.Padded padding found moved ∧
            (moved.Standalone ((Indent.mk padding first).apply source) ↔ found.Standalone source))
          (placed source tags) (placed ((Indent.mk padding first).apply source) tags) ∧
        List.Forall₂ (Node.Padded padding first source (placed source tags)
            (placed ((Indent.mk padding first).apply source) tags))
          (Node.withoutTexts nodes) (Node.withoutTexts again)) ∧
      ∀ name, '\n' ∉ name → (Indent.mk padding false).apply name = name := by
  refine ⟨exists_compile_padded_iff blank ne_nil first source tags, ?_, ?_⟩
  · intro nodes again h hagain
    obtain ⟨pieces, hr, hn⟩ := compile_eq_ok_iff_nested.1 h
    obtain ⟨others, hothers, hnested⟩ := compile_eq_ok_iff_nested.1 hagain
    obtain ⟨found, hfound, hp⟩ := hr.padded blank ne_nil first 0
    obtain rfl := hothers.unique hfound
    rw [placed, placed, Tokens.read_of_reading hr, Tokens.read_of_reading hothers]
    refine ⟨hr.tags_padded blank hothers hp, ?_⟩
    obtain ⟨drawn, hdrawn, halike⟩ := hn.redraw_along Nested.draws_padded (hr.pairs_padded blank hothers hp)
    have hsame : drawn = again := by
      have hbuild := Builder.build_eq_ok_iff.2 hdrawn
      rw [Builder.build_eq_ok_iff.2 hnested] at hbuild
      exact (Except.ok.inj hbuild).symm
    exact hsame ▸ halike
  · intro name no_feed
    rw [Indent.apply_rest, Indent.pad_of_no_feed no_feed]

omit blank ne_nil

/-- Two partials on the line that is not padded, and one in a section whose opening tag has two
lines. -/
def threePartials : Text :=
  "x{{>p}}{{>q}}\n\x7b\x7b#s\n\x7d\x7d\n {{>r}}\n{{/s}}".toList

def threePartialsPadded : Text :=
  "x{{>p}}{{>q}}\n\t\x7b\x7b#s\n\t\x7d\x7d\n\t {{>r}}\n\t{{/s}}".toList

def threePartialsNodes : List Node :=
  [.text ['x'], .inclusion ['p'] (.inline ['x']) ⟨1, 7⟩, .inclusion ['q'] default ⟨7, 13⟩,
    .text ['\n'], .block (.parse ['s']) false [.inclusion ['r'] (.standalone [' ']) ⟨23, 29⟩]
      (.mk fun _ => "\n {{>r}}\n".toList) default ⟨14, 36⟩]

def threePartialsPaddedNodes : List Node :=
  [.text ['x'], .inclusion ['p'] (.inline ['x']) ⟨1, 7⟩, .inclusion ['q'] default ⟨7, 13⟩,
    .text ['\n'], .block (.parse ['s']) false [.inclusion ['r'] (.standalone ['\t', ' ']) ⟨26, 32⟩]
      (.mk fun _ => "\n\t {{>r}}\n\t".toList) default ⟨15, 40⟩]

theorem compile_apply_threePartials :
    (Indent.mk ['\t'] false).apply threePartials = threePartialsPadded ∧
      compile threePartials default = .ok threePartialsNodes ∧
      compile threePartialsPadded default = .ok threePartialsPaddedNodes ∧
      List.Forall₂ (Node.Padded ['\t'] false threePartials (placed threePartials default)
        (placed threePartialsPadded default)) (Node.withoutTexts threePartialsNodes)
        (Node.withoutTexts threePartialsPaddedNodes) := by
  have hpad : (Indent.mk ['\t'] false).apply threePartials = threePartialsPadded := by cbv
  have hone : compile threePartials default = .ok threePartialsNodes := by cbv
  have htwo : compile threePartialsPadded default = .ok threePartialsPaddedNodes := by cbv
  obtain ⟨-, htrees, -⟩ := @compile_apply ['\t'] rfl (by simp) false threePartials default
  rw [hpad] at htrees
  exact ⟨hpad, hone, htwo, (htrees _ _ hone htwo).2⟩

end Template
end Stencil
