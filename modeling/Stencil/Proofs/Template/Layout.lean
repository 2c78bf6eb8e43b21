import Mathlib
import Stencil.Proofs.Template.Kept
import Stencil.Proofs.Template.Within

/-!
# The layout of a tree

Where the texts of a tree and the indentations of its partials come from, told from the source and
the tags in it alone.
-/

namespace Stencil

/-- The tags of a source that starts under the given pair, in order. -/
def Template.placed (source : Text) (tags : Tags) : List PlacedTag :=
  Piece.tags (Tokens.read source tags 0 source).1

/-- What comes before a tag, parted where a line starts: after the last line feed that is in none of
the spans. -/
structure PlacedTag.StartsAfter (source : Text) (spans : List Span) (placed : PlacedTag)
    (front between : Text) : Prop where
  cut : source.takeBytes placed.span.start = front ++ between
  starts : front = [] ∨ ∃ before, front = before ++ ['\n'] ∧ ¬ Covers spans before.size
  unbroken : ∀ before after, between = before ++ '\n' :: after →
    Covers spans (front.size + before.size)

section

variable {source front between other more : Text} {spans : List Span} {placed : PlacedTag}

theorem PlacedTag.StartsAfter.eq_nil {part : Text} (h : placed.StartsAfter source spans front between)
    (ho : placed.StartsAfter source spans (front ++ part) more) (hb : between = part ++ more) :
    part = [] := by
  by_contra hne
  obtain ⟨before, last, rfl⟩ := (List.eq_nil_or_concat part).resolve_left hne
  rw [List.concat_eq_append] at hb
  rcases ho.starts with hnil | ⟨start, hstart, uncovered⟩
  · simp at hnil
  · rw [List.concat_eq_append, ← List.append_assoc] at hstart
    obtain ⟨rfl, hlast⟩ := List.append_inj' hstart rfl
    obtain rfl : last = '\n' := by simpa using hlast
    have hcovers := h.unbroken before more (by simpa using hb)
    rw [← Text.size_append] at hcovers
    exact uncovered hcovers

/-- A line starts at one place only. -/
theorem PlacedTag.StartsAfter.unique (h : placed.StartsAfter source spans front between)
    (ho : placed.StartsAfter source spans other more) : front = other ∧ between = more := by
  have hcut : front ++ between = other ++ more := h.cut.symm.trans ho.cut
  rcases List.append_eq_append_iff.1 hcut with ⟨part, rfl, hb⟩ | ⟨part, rfl, hm⟩
  · obtain rfl := h.eq_nil ho hb
    exact ⟨by simp, hb⟩
  · obtain rfl := ho.eq_nil h hm
    exact ⟨by simp, hm.symm⟩

end

/-- A tag of the list lies between a byte offset and the start of this tag. -/
def PlacedTag.Follows (all : List PlacedTag) (start : Nat) (placed : PlacedTag) : Prop :=
  ∃ other ∈ all, start ≤ other.span.start ∧ other.span.stop ≤ placed.span.start

instance (all : List PlacedTag) (start : Nat) (placed : PlacedTag) :
    Decidable (placed.Follows all start) :=
  inferInstanceAs (Decidable (∃ other ∈ all, _))

/-- The indentation that a partial gets from its place: the blanks before it if it stands alone, and
else the text before it on its line, unless another tag is there. -/
def PlacedTag.Indented (source : Text) (all : List PlacedTag) (placed : PlacedTag)
    (indent : Indent) : Prop :=
  if placed.Standalone source then indent = .standalone (placed.lineFront source)
  else ∃ front between, placed.StartsAfter source (all.map span) front between ∧
    indent = if placed.Follows all front.size then default else .inline between

namespace Line

variable {front t : Text} {items : List Item} {placed : PlacedTag} {indent first : Indent}

/-- Of the tags on a line only the first has text before it to give an indentation. -/
theorem of_mem_inlineEvents (h : .tag placed indent ∈ inlineEvents first items) :
    ∃ before after, items = before ++ .tag placed :: after ∧
      indent = if before.filterMap placed? = [] then first else default := by
  induction items generalizing first with
  | nil => cases h
  | cons item items ih =>
    cases item with
    | text t =>
      rw [inlineEvents, List.mem_cons] at h
      obtain ⟨before, after, rfl, hi⟩ := ih (h.resolve_left (by simp))
      exact ⟨.text t :: before, after, rfl, hi⟩
    | tag found =>
      rw [inlineEvents, List.mem_cons] at h
      rcases h with h | h
      · cases h
        exact ⟨[], items, rfl, rfl⟩
      · obtain ⟨before, after, rfl, hi⟩ := ih h
        refine ⟨.tag found :: before, after, rfl, ?_⟩
        rw [hi]
        simp [placed?]

theorem of_mem_events {line : Line} (h : .tag placed indent ∈ line.events) :
    ∃ before after, line.items = before ++ .tag placed :: after ∧
      (lone? line.items = some placed ∧ indent = .standalone (preceding line.items) ∨
        lone? line.items = none ∧ indent =
          if before.filterMap placed? = [] then .inline (preceding line.items) else default) := by
  cases hl : lone? line.items with
  | some found =>
    rw [events, hl] at h
    obtain ⟨rfl, rfl⟩ : placed = found ∧ indent = .standalone (preceding line.items) := by
      simpa using h
    have hm : placed ∈ Piece.tags (line.items.map .item) := by simp [tags_of_lone hl]
    obtain ⟨before, after, hi⟩ := exists_split_of_mem hm
    exact ⟨before, after, hi, .inl ⟨rfl, rfl⟩⟩
  | none =>
    rw [events, hl] at h
    have hm : .tag placed indent ∈ inlineEvents (.inline (preceding line.items)) line.items := by
      rcases List.mem_append.1 h with h | h
      · exact h
      · split at h <;> simp at h
    obtain ⟨before, after, hi, hindent⟩ := of_mem_inlineEvents hm
    exact ⟨before, after, hi, .inr ⟨rfl, hindent⟩⟩

/-- Line feeds between the items of a line are in tags. -/
theorem covers_of_feed {n : Nat} (h : Laid n t (items.map .item)) {before after : Text}
    (hf : t = before ++ '\n' :: after) :
    Covers ((Piece.tags (items.map .item)).map PlacedTag.span) (n + before.size) := by
  induction items generalizing n t before with
  | nil =>
    cases h
    simp at hf
  | cons item items ih =>
    cases item with
    | text u =>
      cases h with
      | @text n u rest pieces ne_nil no_feed whole hrest =>
        rcases List.append_eq_append_iff.1 hf with ⟨a, rfl, ha⟩ | ⟨c, rfl, hc⟩
        · have := ih hrest ha
          rwa [Nat.add_assoc, ← Text.size_append] at this
        · cases c with
          | nil =>
            have := ih hrest (show rest = [] ++ '\n' :: after from hc.symm)
            simpa using this
          | cons d c => simp_all
    | tag found =>
      cases h with
      | @tag n raw rest placed pieces solid span hrest =>
        rcases List.append_eq_append_iff.1 hf with ⟨a, rfl, ha⟩ | ⟨c, rfl, hc⟩
        · obtain ⟨s, hs, hb⟩ := ih hrest ha
          rw [Nat.add_assoc, ← Text.size_append] at hb
          exact ⟨s, List.mem_cons_of_mem _ hs, hb⟩
        · cases c with
          | nil =>
            obtain ⟨s, hs, hb⟩ := ih hrest (show rest = [] ++ '\n' :: after from hc.symm)
            exact ⟨s, List.mem_cons_of_mem _ hs, by simpa using hb⟩
          | cons d c =>
            have := d.utf8Size_pos
            refine ⟨found.span, List.mem_cons_self .., ?_⟩
            rw [span]
            simp
            omega

end Line

/-- A line feed at the end is in no tag. -/
theorem Laid.stop_le_of_feed {n : Nat} {t before : Text} {pieces : List Piece}
    {placed : PlacedTag} (h : Laid n t pieces) (ht : t = before ++ ['\n'])
    (hp : placed ∈ Piece.tags pieces) : placed.span.stop ≤ n + before.size := by
  obtain ⟨front, back, rfl⟩ := Piece.exists_split_of_mem hp
  obtain ⟨u, raw, v, rfl, -, ⟨-, w, c, rfl, hc⟩, hspan, -⟩ := h.cut
  rcases List.eq_nil_or_concat v with rfl | ⟨v, d, rfl⟩
  · obtain ⟨-, hn⟩ := List.append_inj' (show (u ++ w) ++ [c] = before ++ ['\n'] by simpa using ht) rfl
    obtain rfl : c = '\n' := by simpa using hn
    simp [show Text.isBlank '\n' = true by decide] at hc
  · obtain ⟨rfl, -⟩ := List.append_inj'
      (show (u ++ ((w ++ [c]) ++ v)) ++ [d] = before ++ ['\n'] by simpa using ht) rfl
    rw [hspan]
    simp only [Text.size_append]
    omega

/-- Each event is one of a line that stands in the source. -/
theorem Laid.exists_line {front t : Text} {lines : List Line} {last : List Item} {e : Event}
    (starts : StartsLine front)
    (h : Laid front.size t (lines.flatMap Line.pieces ++ last.map .item))
    (he : e ∈ lines.flatMap Line.events ++ Line.events ⟨last, []⟩) :
    ∃ (before : List Piece) (line : Line) (after : List Piece) (u v rest : Text),
      lines.flatMap Line.pieces ++ last.map .item =
        before ++ (line.items.map .item ++ Line.ending line.terminator ++ after) ∧
      e ∈ line.events ∧ t = u ++ (v ++ rest) ∧ Laid front.size u before ∧
      line.Stands (front ++ u) v rest ∧ Laid ((front ++ u).size + v.size) rest after := by
  induction lines generalizing front t with
  | nil =>
    exact ⟨[], ⟨last, []⟩, [], [], t, [], by simp [Line.ending], he, by simp, .nil,
      by simpa using Line.stands_of_last starts h, .nil⟩
  | cons line lines ih =>
    rw [List.flatMap_cons, List.append_assoc] at h
    rw [List.flatMap_cons, List.append_assoc, List.mem_append] at he
    obtain ⟨u, rest, rfl, hne, hstands, hstarts, hrest⟩ := Line.stands_of_laid starts h
    rcases he with he | he
    · refine ⟨[], line, lines.flatMap Line.pieces ++ last.map .item, [], u, rest, ?_, he, rfl, .nil,
        by simpa using hstands, ?_⟩
      · rw [← Line.pieces_eq hne, List.flatMap_cons, List.append_assoc, List.nil_append]
      · simpa using hrest
    · obtain ⟨before, found, after, u', v, rest, hp, he, rfl, hu, hs, ha⟩ := ih hstarts hrest he
      refine ⟨line.pieces ++ before, found, after, u ++ u', v, rest, ?_, he, by simp, ?_, ?_, ?_⟩
      · rw [List.flatMap_cons, List.append_assoc, hp]
        simp
      · refine Laid.append ?_ (by simpa using hu) (hstarts.endsWhole _)
        rw [Line.pieces_eq hne]
        exact hstands.laid
      · rwa [← List.append_assoc]
      · rwa [← List.append_assoc]

/-- A line feed between pieces that hold their tags is in no tag. -/
theorem Laid.not_covers_feed {front t : Text} {before after : List Piece}
    (hb : Laid 0 front before) (ha : ∀ placed ∈ Piece.tags after, front.size ≤ placed.span.start)
    (ht : front = t ++ ['\n']) :
    ¬ Covers ((Piece.tags (before ++ after)).map PlacedTag.span) t.size := by
  rintro ⟨span, hm, hs⟩
  obtain ⟨placed, hp, rfl⟩ := List.mem_map.1 hm
  rw [Piece.tags_append, List.mem_append] at hp
  rcases hp with hp | hp
  · have := hb.stop_le_of_feed ht hp
    omega
  · have := ha placed hp
    have := Char.utf8Size_pos '\n'
    rw [ht, Text.size_append, Text.size_cons] at *
    omega

section

variable {line : Line} {u v rest : Text} {pre post : List Piece} {before after : List Item}
  {placed : PlacedTag}

/-- All the tags of a source, around those of a line. -/
abbrev Line.allTags (line : Line) (pre post : List Piece) : List PlacedTag :=
  Piece.tags (pre ++ (line.items.map .item ++ ending line.terminator ++ post))

variable (hb : Laid 0 u pre) (hs : line.Stands u v rest) (ha : Laid (u.size + v.size) rest post)
include hb hs ha

/-- Another tag lies between the start of a line and a tag on it if it comes first there. -/
theorem Line.Stands.follows_iff (hi : line.items = before ++ .tag placed :: after) :
    placed.Follows (line.allTags pre post) u.size ↔ before.filterMap placed? ≠ [] := by
  obtain ⟨w, raw, x, rfl, hw, hsolid, hspan, hx⟩ := hs.cut hi
  simp only [Text.size_append] at *
  rw [← tags_items]
  constructor
  · rintro ⟨other, ho, hstart, hstop⟩ hnone
    simp only [allTags, hi, Piece.tags_append, List.map_append, List.map_cons, Piece.tags_tag,
      hnone, tags_ending, List.nil_append, List.append_nil, List.mem_append, List.mem_cons] at ho
    replace hstop : other.span.stop ≤ u.size + w.size := by simpa only [hspan] using hstop
    rcases ho with ho | (rfl | ho) | ho
    · have := hb.span_of_mem ho
      omega
    · rw [hspan] at hstop
      obtain ⟨⟨c, s, rfl, -⟩, -⟩ := hsolid
      have := c.utf8Size_pos
      simp only [Text.size_cons] at hstop
      omega
    · have := hx.span_of_mem (show other ∈ _ by simp [ho])
      omega
    · have := ha.span_of_mem ho
      omega
  · intro hsome
    obtain ⟨other, others, ho⟩ := List.exists_cons_of_ne_nil hsome
    have hmem : other ∈ Piece.tags (before.map .item) := ho ▸ List.mem_cons_self ..
    have := hw.span_of_mem hmem
    refine ⟨other, ?_, this.1, ?_⟩
    · simp [allTags, hi, hmem]
    · rw [hspan]
      exact this.2.2

/-- A tag on a line that keeps its text starts after the start of the line. -/
theorem Line.Stands.startsAfter (hi : line.items = before ++ .tag placed :: after) :
    ∃ between, placed.StartsAfter (u ++ (v ++ rest)) ((line.allTags pre post).map PlacedTag.span)
      u between ∧ Laid u.size between (before.map .item) := by
  obtain ⟨w, raw, x, rfl, hw, -, hspan, hx⟩ := hs.cut hi
  refine ⟨w, ⟨?_, ?_, ?_⟩, hw⟩
  · rw [hspan, show u ++ (w ++ (raw ++ x) ++ rest) = (u ++ w) ++ (raw ++ x ++ rest) by simp,
      Text.takeBytes_size_append]
  · rcases hs.starts with hu | ⟨t, hu⟩
    · exact .inl hu
    · refine .inr ⟨t, hu, hb.not_covers_feed (fun other ho => ?_) hu⟩
      rw [Piece.tags_append, List.mem_append] at ho
      rcases ho with ho | ho
      · exact (hs.laid.span_of_mem ho).1
      · have := (ha.span_of_mem ho).1
        omega
  · intro s t hfeed
    obtain ⟨span, hm, hc⟩ := covers_of_feed hw hfeed
    refine ⟨span, ?_, hc⟩
    obtain ⟨other, ho, rfl⟩ := List.mem_map.1 hm
    exact List.mem_map_of_mem (by simp [allTags, hi, ho])

theorem Line.Stands.indented {indent : Indent} (he : .tag placed indent ∈ line.events) :
    placed ∈ line.allTags pre post ∧
      placed.Indented (u ++ (v ++ rest)) (line.allTags pre post) indent := by
  obtain ⟨before, after, hi, hl⟩ := of_mem_events he
  constructor
  · simp [allTags, hi]
  · rcases hl with ⟨hl, rfl⟩ | ⟨hl, rfl⟩
    · rw [PlacedTag.Indented, if_pos ((hs.standalone_iff hi).2 hl), (hs.of_lone hi hl).1]
    · rw [PlacedTag.Indented, if_neg (by rw [hs.standalone_iff hi, hl]; simp)]
      obtain ⟨between, hstarts, hbetween⟩ := Line.Stands.startsAfter hb hs ha hi
      refine ⟨u, between, hstarts, ?_⟩
      by_cases hn : before.filterMap placed? = []
      · rw [if_pos hn, if_neg (by rw [Line.Stands.follows_iff hb hs ha hi]; simpa using hn), hi,
          preceding_append hn, eq_outside hbetween hn]
      · rw [if_neg hn, if_pos ((Line.Stands.follows_iff hb hs ha hi).2 hn)]

end

/-- Each tag is told the indentation of its place. -/
theorem Reading.indented {tags : Tags} {source : Text} {pieces : List Piece}
    (h : Reading tags 0 source pieces) {placed : PlacedTag} {indent : Indent}
    (he : .tag placed indent ∈ Piece.events pieces) :
    placed ∈ Piece.tags pieces ∧ placed.Indented source (Piece.tags pieces) indent := by
  have hlaid := h.laid
  rw [← Line.flatMap_pieces_split pieces] at hlaid ⊢
  obtain ⟨pre, line, post, u, v, rest, hp, he, rfl, hu, hs, hr⟩ :=
    Laid.exists_line .nil hlaid he
  rw [hp]
  exact Line.Stands.indented hu hs hr he

theorem Laid.run_ne_nil {n : Nat} {t : Text} {pieces : List Piece} (h : Laid n t pieces) :
    .item (.text []) ∉ pieces := by
  induction h with
  | nil => simp
  | text ne_nil no_feed whole after ih => simpa [ih] using ne_nil.symm
  | lineEnd terminator after ih => simpa using ih
  | tag solid span after ih => simpa using ih

theorem Line.mem_of_text_mem_inlineEvents {t : Text} {first : Indent} {items : List Item}
    (h : .text t ∈ inlineEvents first items) : .text t ∈ items := by
  induction items generalizing first with
  | nil => cases h
  | cons item items ih =>
    cases item with
    | text u =>
      rw [inlineEvents, List.mem_cons] at h
      rcases h with h | h
      · cases h
        exact List.mem_cons_self ..
      · exact List.mem_cons_of_mem _ (ih h)
    | tag found =>
      rw [inlineEvents, List.mem_cons] at h
      exact List.mem_cons_of_mem _ (ih (h.resolve_left (by simp)))

/-- Every text that is written holds a character. -/
theorem Reading.written {tags : Tags} {source : Text} {pieces : List Piece}
    (h : Reading tags 0 source pieces) : .text [] ∉ Piece.events pieces := by
  intro he
  have hlaid := h.laid
  rw [← Line.flatMap_pieces_split pieces] at hlaid
  obtain ⟨pre, line, post, u, v, rest, -, he, rfl, -, hs, -⟩ :=
    Laid.exists_line .nil hlaid he
  cases hl : Line.lone? line.items with
  | some found => simp [Line.events, hl] at he
  | none =>
    rw [Line.events, hl] at he
    rcases List.mem_append.1 he with he | he
    · have := Line.mem_of_text_mem_inlineEvents he
      exact hs.laid.run_ne_nil (List.mem_append_left _ (List.mem_map_of_mem this))
    · split at he <;> simp_all

namespace Template

/-- The texts of a tree are its source without the tags and without the lines that some of them
take; they are never empty and never neighbours; and each partial is indented as its place asks. -/
theorem compile_layout {source : Text} {tags : Tags} {nodes : List Node}
    (h : compile source tags = .ok nodes) :
    Node.literals nodes =
        source.without ((placed source tags).map (PlacedTag.taken source)) 0 ∧
      (∀ level, Level nodes level → Neat level) ∧
      ∀ name indent span, Within (.inclusion name indent span) nodes →
        ∃ found ∈ placed source tags, found.tag.sigil = .inclusion ∧ found.tag.name = name ∧
          found.span = span ∧ found.Indented source (placed source tags) indent := by
  obtain ⟨pieces, hr, hn⟩ := compile_eq_ok_iff_nested.1 h
  have hplaced : placed source tags = Piece.tags pieces := by
    rw [placed, Tokens.read_of_reading hr]
  rw [hplaced]
  refine ⟨?_, fun level => hn.neat_level hr.written, fun name indent span hw => ?_⟩
  · rw [hn.literals_eq, hr.without_taken]
  · obtain ⟨found, he, hs, hname, hspan⟩ := hn.inclusion_of_within hw
    obtain ⟨hm, hi⟩ := hr.indented he
    exact ⟨found, hm, hs, hname, hspan, hi⟩

/-- A partial that has its line to itself and one that has not. -/
def twoPartials : Text :=
  "a\n  {{>p}}\r\nx{{>q}}".toList

def twoPartialsNodes : List Node :=
  [.text ['a', '\n'], .inclusion ['p'] (.standalone [' ', ' ']) ⟨4, 10⟩, .text ['x'],
    .inclusion ['q'] (.inline ['x']) ⟨13, 19⟩]

theorem compile_twoPartials : compile twoPartials default = .ok twoPartialsNodes := by
  cbv

/-- The partial that stands alone takes the blanks before it and the line end after it. -/
theorem compile_layout_twoPartials :
    twoPartials.without ((placed twoPartials default).map (PlacedTag.taken twoPartials)) 0 =
        ['a', '\n', 'x'] ∧
      Neat twoPartialsNodes ∧
      ∃ found ∈ placed twoPartials default, found.span = ⟨13, 19⟩ ∧
        found.Indented twoPartials (placed twoPartials default) (.inline ['x']) := by
  obtain ⟨htext, hneat, hindent⟩ := compile_layout compile_twoPartials
  obtain ⟨found, hm, -, -, hspan, hi⟩ := hindent ['q'] (.inline ['x']) ⟨13, 19⟩
    (.here (by simp [twoPartialsNodes]))
  exact ⟨htext.symm, hneat _ (.inl rfl), found, hm, hspan, hi⟩

end Template
end Stencil
