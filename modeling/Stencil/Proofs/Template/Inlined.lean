import Mathlib
import Stencil.Proofs.Template.Joint
import Stencil.Proofs.Template.Pairs
import Stencil.Proofs.Template.Splice

/-!
# A partial in its own place

The text of a partial may stand for the tag that includes it: where the tag shares its line, the text
brings no line of its own but something that is seen, and no delimiter comes about where they meet,
the source goes on to compile, and its lines give the same events but for those of the text.
-/

namespace Stencil

open Event (spell)
open Piece (atoms)

namespace Piece

variable {pieces front back : List Piece} {placed : PlacedTag}

/-- A tag among the characters is one among the pieces. -/
theorem exists_of_atoms_tag (h : pieces.flatMap atoms = front ++ .item (.tag placed) :: back) :
    ∃ before after, pieces = before ++ .item (.tag placed) :: after ∧ before.flatMap atoms = front := by
  induction pieces generalizing front with
  | nil => simp at h
  | cons piece pieces ih =>
    rw [List.flatMap_cons] at h
    have hplain : .item (.tag placed) ∉ atoms piece →
        ∃ before after, piece :: pieces = before ++ .item (.tag placed) :: after ∧
          before.flatMap atoms = front := by
      intro hno
      rcases List.append_eq_append_iff.1 h with ⟨rest, rfl, hrest⟩ | ⟨rest, hpiece, hrest⟩
      · obtain ⟨before, after, rfl, hbefore⟩ := ih hrest
        exact ⟨piece :: before, after, rfl, by rw [List.flatMap_cons, hbefore]⟩
      · cases rest with
        | nil =>
          obtain ⟨before, after, rfl, hbefore⟩ := @ih [] hrest.symm
          refine ⟨piece :: before, after, rfl, ?_⟩
          rw [List.flatMap_cons, hbefore, hpiece, List.append_nil, List.append_nil]
        | cons other rest =>
          obtain ⟨rfl, -⟩ := List.cons.inj hrest
          exact absurd (by simp [hpiece]) hno
    have hchar : ∀ t : Text, .item (.tag placed) ∉ t.map ofChar := by
      intro t ht
      obtain ⟨c, -, hc⟩ := List.mem_map.1 ht
      unfold ofChar at hc
      split at hc <;> cases hc
    cases piece with
    | lineEnd t => exact hplain (hchar _)
    | item item =>
      cases item with
      | text t => exact hplain (hchar _)
      | tag found =>
        cases front with
        | nil =>
          obtain ⟨hfound, -⟩ := List.cons.inj h
          cases hfound
          exact ⟨[], pieces, rfl, rfl⟩
        | cons other front =>
          obtain ⟨rfl, hrest⟩ := List.cons.inj h
          obtain ⟨before, after, rfl, rfl⟩ := ih hrest
          exact ⟨_ :: before, after, rfl, rfl⟩

theorem flatMap_atoms_map_shift (k : Nat) (pieces : List Piece) :
    (pieces.map (shift k)).flatMap atoms = (pieces.flatMap atoms).map (shift k) := by
  have hchar : ∀ t : Text, (t.map ofChar).map (shift k) = t.map ofChar := by
    intro t
    rw [List.map_map]
    refine List.map_congr_left fun c _ => ?_
    simp only [Function.comp_apply, ofChar]
    split <;> rfl
  rw [List.flatMap_map, List.map_flatMap]
  refine List.flatMap_congr fun piece _ => ?_
  cases piece with
  | lineEnd t => exact (hchar _).symm
  | item item =>
    cases item with
    | text t => exact (hchar _).symm
    | tag found => rfl

/-- The character is one of the pieces, with others after it if there is more after it. -/
def Bears (pieces : List Piece) (c : Char) (back : Text) : Prop :=
  ∃ before after, pieces.flatMap atoms = before ++ ofChar c :: after ∧ (after = [] → back = [])

theorem Bears.cons {c : Char} {back : Text} {piece : Piece} (h : Bears pieces c back) :
    Bears (piece :: pieces) c back := by
  obtain ⟨before, after, hatoms, hafter⟩ := h
  exact ⟨atoms piece ++ before, after, by rw [List.flatMap_cons, hatoms, List.append_assoc], hafter⟩

end Piece

namespace Laid

variable {n : Nat} {t : Text} {pieces : List Piece}

/-- Characters without a line end are of pieces without one. -/
theorem exists_items_of_atoms (h : Laid n t pieces) {items : List Item}
    (hi : pieces.flatMap atoms = items.map .item) : ∃ others : List Item, pieces = others.map .item := by
  have hrest : ∀ {piece : Piece} {pieces : List Piece} {items : List Item},
      (piece :: pieces).flatMap atoms = items.map .item →
        ∃ others : List Item, pieces.flatMap atoms = others.map .item := by
    intro piece pieces items hi
    obtain ⟨_, others, _, _, hothers⟩ := List.map_eq_append_iff.1 hi.symm
    exact ⟨others, hothers.symm⟩
  induction h generalizing items with
  | nil => exact ⟨[], rfl⟩
  | @text _ t _ _ _ _ _ _ ih =>
    obtain ⟨_, hi⟩ := hrest hi
    obtain ⟨others, rfl⟩ := ih hi
    exact ⟨.text t :: others, rfl⟩
  | @lineEnd _ terminator _ pieces hends _ _ =>
    have hfeed : .lineEnd ['\n'] ∈ (.lineEnd terminator :: pieces).flatMap atoms := by
      rcases hends with rfl | rfl <;> simp [atoms, Piece.outside, Piece.ofChar]
    rw [hi] at hfeed
    simp at hfeed
  | @tag _ _ _ placed _ _ _ _ ih =>
    obtain ⟨_, hi⟩ := hrest hi
    obtain ⟨others, rfl⟩ := ih hi
    exact ⟨.tag placed :: others, rfl⟩

/-- The characters of a text without a line feed end no line. -/
theorem exists_items_of_no_feed (h : Laid n t pieces) (no_feed : '\n' ∉ t) :
    ∃ items : List Item, pieces.flatMap atoms = items.map .item := by
  induction h with
  | nil => exact ⟨[], rfl⟩
  | text _ no_feed' _ _ ih =>
    rw [List.mem_append, not_or] at no_feed
    obtain ⟨items, hitems⟩ := ih no_feed.2
    exact ⟨_ ++ items, by rw [List.flatMap_cons, Piece.atoms_text no_feed', hitems, List.map_append]⟩
  | lineEnd terminator =>
    rcases terminator with rfl | rfl <;> simp at no_feed
  | @tag _ _ _ placed _ _ _ _ ih =>
    rw [List.mem_append, not_or] at no_feed
    obtain ⟨items, hitems⟩ := ih no_feed.2
    exact ⟨.tag placed :: items, by rw [List.flatMap_cons, hitems]; rfl⟩

/-- A character of a run or of what follows it, if those that follow it are of pieces. -/
theorem bears_of_append {rest u front back : Text} {c : Char} {piece : Piece}
    (h : Laid n rest pieces) (hpiece : atoms piece = u.map Piece.ofChar)
    (hu : u ++ rest = front ++ c :: back)
    (later : ∀ more, rest = more ++ c :: back → front = u ++ more → Piece.Bears pieces c back) :
    Piece.Bears (piece :: pieces) c back := by
  rcases List.append_eq_append_iff.1 hu with ⟨more, hfront, hrest⟩ | ⟨more, rfl, hmore⟩
  · exact (later more hrest hfront).cons
  · cases more with
    | nil => exact (later [] hmore.symm (by simp)).cons
    | cons d more =>
      obtain ⟨rfl, rfl⟩ := List.cons.inj hmore
      refine ⟨front.map Piece.ofChar, more.map Piece.ofChar ++ pieces.flatMap atoms, ?_, ?_⟩
      · simp [hpiece]
      · intro hnil
        obtain ⟨hmore, hnone⟩ := List.append_eq_nil_iff.1 hnil
        rw [List.map_eq_nil_iff.1 hmore, h.eq_nil_of_atoms hnone]
        rfl

/-- A character outside of the tags is one of the pieces. -/
theorem bears_of_not_covers (h : Laid n t pieces) {front back : Text} {c : Char}
    (ht : t = front ++ c :: back)
    (hc : ¬ Covers ((Piece.tags pieces).map PlacedTag.span) (n + front.size)) :
    Piece.Bears pieces c back := by
  induction h generalizing front with
  | nil => simp at ht
  | @text _ u _ _ _ _ _ hrest ih =>
    refine hrest.bears_of_append (u := u) rfl ht fun more hmore hfront => ih hmore ?_
    rwa [Nat.add_assoc, ← Text.size_append, ← hfront]
  | @lineEnd _ u _ _ _ hrest ih =>
    refine hrest.bears_of_append (u := u) rfl ht fun more hmore hfront => ih hmore ?_
    rwa [Nat.add_assoc, ← Text.size_append, ← hfront]
  | @tag n raw rest placed pieces solid span hrest ih =>
    have hspans : ∀ i, Covers ((Piece.tags pieces).map PlacedTag.span) i →
        Covers ((Piece.tags (.item (.tag placed) :: pieces)).map PlacedTag.span) i := by
      rintro i ⟨s, hs, hb⟩
      exact ⟨s, List.mem_cons_of_mem _ hs, hb⟩
    have hlater : ∀ more, rest = more ++ c :: back → front = raw ++ more →
        Piece.Bears (.item (.tag placed) :: pieces) c back := by
      rintro more hmore rfl
      refine (ih hmore fun h => hc (hspans _ ?_)).cons
      rwa [Text.size_append, ← Nat.add_assoc]
    rcases List.append_eq_append_iff.1 ht with ⟨more, hfront, hmore⟩ | ⟨more, rfl, hmore⟩
    · exact hlater more hmore hfront
    · cases more with
      | nil => exact hlater [] hmore.symm (by simp)
      | cons d more =>
        refine absurd ⟨placed.span, List.mem_cons_self .., ?_⟩ hc
        have := d.utf8Size_pos
        rw [span]
        simp only [Text.size_append, Text.size_cons]
        omega

end Laid

theorem Text.append_inj_of_size {s t u v : Text} (h : s ++ t = u ++ v) (hs : s.size = u.size) :
    s = u ∧ t = v := by
  have hu : s = u := by
    rw [← Text.takeBytes_size_append s t, h, hs, Text.takeBytes_size_append]
  subst hu
  exact ⟨rfl, List.append_cancel_left h⟩

/-- The later tag comes after the first on its line: every line feed between them is in a tag. -/
def PlacedTag.SharesLine (source : Text) (spans : List Span) (first later : PlacedTag) : Prop :=
  first.span.stop ≤ later.span.start ∧ ∀ before after : Text,
    source.slice first.span.stop later.span.start = before ++ '\n' :: after →
      Covers spans (first.span.stop + before.size)

namespace Template

/-- A source shows something before what follows it: a character outside of the tags that is no blank,
nor the carriage return of the line end that follows. -/
def Seen (tags : Tags) (part back : Text) : Prop :=
  ∃ (before : Text) (c : Char) (after : Text), part = before ++ c :: after ∧
    ¬ Covers ((Template.placed part tags).map PlacedTag.span) before.size ∧ c ≠ ' ' ∧ c ≠ '\t' ∧
      (after = [] → EndsWhole [c] back)

/-- The text of a partial fits in the place of a tag that includes it: it stands between what comes
before and after the tag. -/
structure Fits (tags : Tags) (front raw back part : Text) (placed : PlacedTag) : Prop where
  mem : placed ∈ Template.placed (front ++ (raw ++ back)) tags
  span : placed.span = ⟨front.size, (front ++ raw).size⟩
  includes : placed.tag.sigil = .inclusion
  pair : placed.tags = tags
  shared : ¬ placed.Standalone (front ++ (raw ++ back))
  last : ∀ later ∈ Template.placed (front ++ (raw ++ back)) tags, later.tag.sigil = .inclusion →
    ¬ placed.SharesLine (front ++ (raw ++ back))
      ((Template.placed (front ++ (raw ++ back)) tags).map PlacedTag.span) later
  compiles : ∃ nodes, compile part tags = .ok nodes
  no_feed : '\n' ∉ part
  plain : ∀ found ∈ Template.placed part tags,
    found.tag.sigil ≠ .inclusion ∧ found.tag.sigil ≠ .delimiters
  starts : ¬ Text.Straddles tags.opening front (part ++ back)
  ends : ¬ Text.Straddles tags.opening (front ++ part) back

namespace Fits

variable {tags : Tags} {front raw back part : Text} {placed : PlacedTag}
  {first inside pieces others : List Piece}
  (h : Fits tags front raw back part placed)
include h

/-- What is before the tag is read, and what is after it may be. -/
theorem exists_reading : ∃ first, Reading tags 0 front first ∧
    (Tokens.scanFrom (front ++ (raw ++ back)) tags 0 front).tags = tags ∧
    ∀ pieces, Reading tags 0 (front ++ (raw ++ back)) pieces ↔ ∃ more, Reading tags 0 back more ∧
      pieces = first ++ .item (.tag placed) :: more.map (Piece.shift (front ++ raw).size) := by
  have hplain : placed.tag.sigil ≠ .delimiters := by
    rw [h.includes]
    simp
  obtain ⟨u, between, v, first, around⟩ := Reading.exists_around h.mem hplain
  have hspan := around.span
  simp only [h.span, Nat.zero_add, Span.mk.injEq, Text.size_append] at hspan
  obtain ⟨rfl, hrest⟩ := Text.append_inj_of_size around.eq hspan.1
  obtain ⟨rfl, rfl⟩ := Text.append_inj_of_size hrest (by omega)
  refine ⟨first, around.reads, around.pair.trans h.pair, fun pieces => ?_⟩
  rw [around.reads_iff, h.pair, h.span]
  constructor
  · rintro ⟨more, rfl, hmore⟩
    obtain ⟨moved, rfl, hmoved⟩ := @Reading.unshift _ 0 _ _ (front ++ raw).size
      (by rwa [Nat.zero_add])
    exact ⟨moved, hmoved, rfl⟩
  · rintro ⟨more, hmore, rfl⟩
    have hshift := hmore.shift (front ++ raw).size
    rw [Nat.zero_add] at hshift
    exact ⟨_, rfl, hshift⟩

/-- With the text of the partial in the place of the tag, the same is read around it. -/
theorem exists_reading_inlined (hfirst : Reading tags 0 front first)
    (hpair : (Tokens.scanFrom (front ++ (raw ++ back)) tags 0 front).tags = tags)
    (hinside : Reading tags 0 part inside) {all : List Piece} :
    (∃ pieces, Reading tags 0 (front ++ (part ++ back)) pieces ∧ pieces.flatMap atoms = all) ↔
      ∃ more, Reading tags 0 back more ∧ first.flatMap atoms ++
        ((inside.flatMap atoms).map (Piece.shift front.size) ++
          (more.flatMap atoms).map (Piece.shift (front.size + part.size))) = all := by
  have hends : ¬ Text.Straddles tags.opening part back :=
    fun across => h.ends (across.of_suffix (List.suffix_append ..))
  have hplain : ∀ found ∈ Piece.tags (inside.map (Piece.shift front.size)),
      found.tag.sigil ≠ .delimiters := by
    intro found hf
    rw [Piece.tags_map_shift] at hf
    obtain ⟨moved, hm, rfl⟩ := List.mem_map.1 hf
    rw [← placed_of_reading hinside] at hm
    exact (h.plain moved hm).2
  have hpart := hinside.shift front.size
  have htags := @Reading.scanFrom_tags _ _ (front ++ (raw ++ back)) _ _ hpart hplain
  have hinner := fun all => @Reading.exists_append_iff _ _ (front ++ (raw ++ back)) _ back _ all hpart
    (by rwa [htags])
  rw [htags] at hinner
  rw [@Reading.exists_append_iff _ _ (front ++ (raw ++ back)) _ (part ++ back) _ all hfirst
    (by rw [hpair]; exact h.starts), hpair]
  constructor
  · rintro ⟨more, hmore, rfl⟩
    obtain ⟨rest, hrest, hatoms⟩ := (hinner _).1 ⟨more, hmore, rfl⟩
    obtain ⟨moved, rfl, hmoved⟩ := @Reading.unshift _ 0 _ _ (front.size + part.size)
      (by rwa [← Nat.add_assoc])
    refine ⟨moved, hmoved, ?_⟩
    rw [← hatoms, Piece.flatMap_atoms_map_shift, Piece.flatMap_atoms_map_shift]
  · rintro ⟨more, hmore, rfl⟩
    have hshift := hmore.shift (front.size + part.size)
    rw [← Nat.add_assoc] at hshift
    obtain ⟨rest, hrest, hatoms⟩ := (hinner _).2 ⟨_, hshift, rfl⟩
    refine ⟨rest, hrest, ?_⟩
    rw [hatoms, Piece.flatMap_atoms_map_shift, Piece.flatMap_atoms_map_shift]

/-- After the tag no partial comes on its line. -/
theorem not_inclusion (hread : Reading tags 0 (front ++ (raw ++ back))
      (first ++ .item (.tag placed) :: pieces.map (Piece.shift (front ++ raw).size)))
    (hback : Reading tags 0 back pieces) {items : List Item} {rest : List Piece}
    (hline : pieces.flatMap atoms = items.map .item ++ rest) {found : PlacedTag}
    (hf : found ∈ Piece.tags (items.map .item)) : found.tag.sigil ≠ .inclusion := by
  intro includes
  have hmem : ∀ other ∈ Piece.tags pieces, other.shift (front ++ raw).size ∈
      Template.placed (front ++ (raw ++ back)) tags := by
    intro other ho
    rw [placed_of_reading hread, Piece.tags_append, Piece.tags_tag, Piece.tags_map_shift]
    exact List.mem_append_right _ (List.mem_cons_of_mem _ (List.mem_map_of_mem ho))
  obtain ⟨between, more, hitems⟩ := Piece.exists_split_of_mem hf
  rw [hitems, List.append_assoc] at hline
  obtain ⟨before, after, rfl, rfl⟩ := Piece.exists_of_atoms_tag hline
  obtain ⟨others, _, -, hothers, -⟩ := List.map_eq_append_iff.1 hitems
  obtain ⟨u, v, w, rfl, hu, -, hspan, -⟩ := hback.laid.cut
  obtain ⟨others, rfl⟩ := hu.exists_items_of_atoms hothers.symm
  have hsplit : front ++ (raw ++ (u ++ (v ++ w))) = (front ++ raw) ++ (u ++ (v ++ w)) := by simp
  refine h.last _ (hmem found (by simp)) includes ⟨?_, fun s t hfeed => ?_⟩
  · simp [h.span, PlacedTag.shift, Span.shift]
  · rw [PlacedTag.shift, Span.shift, h.span, hspan, Nat.zero_add, Nat.add_comm u.size, hsplit,
      Text.slice_append] at hfeed
    obtain ⟨span, hm, hle, hlt⟩ := Line.covers_of_feed hu hfeed
    obtain ⟨other, ho, rfl⟩ := List.mem_map.1 hm
    refine ⟨_, List.mem_map_of_mem (hmem other ?_), ?_⟩
    · rw [Piece.tags_append]
      exact List.mem_append_left _ ho
    · simp only [h.span, PlacedTag.shift, Span.shift]
      omega

/-- The character that is seen is one of the items. -/
theorem exists_solid (seen : Seen tags part back) (hinside : Reading tags 0 part inside)
    {items : List Item} (hitems : inside.flatMap atoms = items.map .item) : ∃ before c after,
      items = before ++ .text [c] :: after ∧ c ≠ ' ' ∧ c ≠ '\t' ∧ (after = [] → EndsWhole [c] back) := by
  obtain ⟨before, c, after, hpart, uncovered, space, tab, whole⟩ := seen
  rw [placed_of_reading hinside, ← Nat.zero_add before.size] at uncovered
  obtain ⟨front, rest, hatoms, hrest⟩ := hinside.laid.bears_of_not_covers hpart uncovered
  have hchar : Piece.ofChar c = .item (.text [c]) := by
    refine if_neg ?_
    rintro rfl
    exact h.no_feed (by simp [hpart])
  rw [hitems, hchar] at hatoms
  obtain ⟨others, _, rfl, -, hmore⟩ := List.map_eq_append_iff.1 hatoms
  obtain ⟨item, more, rfl, hitem, rfl⟩ := List.map_eq_cons_iff.1 hmore
  cases hitem
  exact ⟨others, c, more, rfl, space, tab, fun hm => whole (hrest (by rw [hm]; rfl))⟩

/-- The tag is told to pad no line of its own. -/
theorem firstLine_eq (hread : Reading tags 0 (front ++ (raw ++ back)) pieces) {indent : Indent}
    (he : .tag placed indent ∈ Piece.events pieces) : indent.firstLine = false := by
  obtain ⟨-, hindented⟩ := hread.indented he
  rw [PlacedTag.Indented, if_neg h.shared] at hindented
  obtain ⟨_, _, -, rfl⟩ := hindented
  split <;> rfl

/-- The two sources can be read alike, and their events go together but for those of the partial. -/
theorem exchanged (seen : Seen tags part back) (hinside : Reading tags 0 part inside)
    {items : List Item} (hitems : inside.flatMap atoms = items.map .item) :
    ((∃ pieces, Reading tags 0 (front ++ (raw ++ back)) pieces) ↔
        ∃ others, Reading tags 0 (front ++ (part ++ back)) others) ∧
      ∀ pieces others, Reading tags 0 (front ++ (raw ++ back)) pieces →
        Reading tags 0 (front ++ (part ++ back)) others →
        Event.Exchanged
          (Piece.Inlined placed ((items.map (Item.shift front.size)).map Piece.item))
          (spell (Piece.events pieces)) (spell (Piece.events others)) := by
  obtain ⟨first, hfirst, hpair, hsource⟩ := h.exists_reading
  have hinlined := fun all => @exists_reading_inlined _ _ _ _ _ _ _ _ h hfirst hpair hinside all
  constructor
  · simp only [hsource]
    constructor
    · rintro ⟨_, more, hmore, rfl⟩
      obtain ⟨others, hothers, -⟩ := (hinlined _).2 ⟨more, hmore, rfl⟩
      exact ⟨others, hothers⟩
    · rintro ⟨others, hothers⟩
      obtain ⟨more, hmore, -⟩ := (hinlined _).1 ⟨others, hothers, rfl⟩
      exact ⟨_, more, hmore, rfl⟩
  · intro pieces others hpieces hothers
    obtain ⟨more, hmore, rfl⟩ := (hsource _).1 hpieces
    obtain ⟨same, hsame, hatoms⟩ := (hinlined _).1 ⟨others, hothers, rfl⟩
    obtain rfl := hsame.unique hmore
    have hspell := hpieces.laid.spell_events
    have hspell' := hothers.laid.spell_events
    rw [← hatoms, hitems, Piece.map_shift_items] at hspell'
    rw [List.flatMap_append, List.flatMap_cons, Piece.flatMap_atoms_map_shift] at hspell
    rw [← hspell, ← hspell']
    refine Piece.exchanged_splice (Piece.atomic_atoms same) (fun indent he => ?_) ?_
      fun line rest hline found hf => h.not_inclusion hpieces hmore hline hf
    · refine h.firstLine_eq hpieces (Event.tag_mem_spell.1 ?_)
      rw [← hspell]
      exact Event.tag_mem_spell.2 he
    · obtain ⟨before, c, after, rfl, space, tab, whole⟩ := h.exists_solid seen hinside hitems
      refine ⟨before.map (Item.shift front.size), c, after.map (Item.shift front.size),
        by simp [Item.shift], space, tab, ?_⟩
      rintro rfl hnone hhead
      exact whole (List.map_eq_nil_iff.1 hnone) [] rfl (hmore.laid.head_of_atoms hhead)

/-- The text of the partial leaves no section open. -/
theorem neutral (hinside : Reading tags 0 part inside) {items : List Item}
    (hitems : inside.flatMap atoms = items.map .item) :
    Event.Neutral (Piece.Inlined placed ((items.map (Item.shift front.size)).map Piece.item)) := by
  rintro _ indent _ ⟨rfl, -, other, rfl⟩
  refine ⟨by rw [h.includes]; rfl, ?_⟩
  obtain ⟨pieces, hpieces, hb⟩ := Template.exists_compile_iff.1 h.compiles
  obtain rfl := hpieces.unique hinside
  rwa [Event.tags_spell, Piece.tags_spread, ← Piece.map_shift_items, ← hitems, Piece.tags_map_shift,
    Piece.tags_flatMap_atoms, Sections.balanced_map_shift]

/-- One source compiles if the other does. -/
theorem exists_compile_iff (seen : Seen tags part back) :
    (∃ nodes, compile (front ++ (raw ++ back)) tags = .ok nodes) ↔
      ∃ nodes, compile (front ++ (part ++ back)) tags = .ok nodes := by
  obtain ⟨inside, hinside, -⟩ := Template.exists_compile_iff.1 h.compiles
  obtain ⟨items, hitems⟩ := hinside.laid.exists_items_of_no_feed h.no_feed
  obtain ⟨hreads, hexchanged⟩ := h.exchanged seen hinside hitems
  have hbalanced : ∀ pieces others, Reading tags 0 (front ++ (raw ++ back)) pieces →
      Reading tags 0 (front ++ (part ++ back)) others →
      (Sections.Balanced (Piece.tags pieces) ↔ Sections.Balanced (Piece.tags others)) := by
    intro pieces others hpieces hothers
    have hiff := (hexchanged pieces others hpieces hothers).balanced_iff (h.neutral hinside hitems)
    rwa [Event.tags_spell, Event.tags_spell, Piece.tags_events, Piece.tags_events] at hiff
  rw [Template.exists_compile_iff, Template.exists_compile_iff]
  constructor
  · rintro ⟨pieces, hpieces, hb⟩
    obtain ⟨others, hothers⟩ := hreads.1 ⟨pieces, hpieces⟩
    exact ⟨others, hothers, (hbalanced pieces others hpieces hothers).1 hb⟩
  · rintro ⟨others, hothers, hb⟩
    obtain ⟨pieces, hpieces⟩ := hreads.2 ⟨others, hothers⟩
    exact ⟨pieces, hpieces, (hbalanced pieces others hpieces hothers).2 hb⟩

end Fits
end Template
end Stencil
