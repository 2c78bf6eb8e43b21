import Stencil.Proofs.Template.Exchange
import Stencil.Proofs.Template.Spread

/-!
# Items in the place of a tag

When the items that stand for a tag hold a character that is no blank, no tag of their line stands
alone; if the tag did not stand alone either, the other events of the line stay what they are.
-/

namespace Stencil

open Event (spell)

namespace Piece

/-- No line goes on at the end. -/
def EndsLine (pieces : List Piece) : Prop :=
  ∀ last ∈ pieces.getLast?, ∃ t, last = .lineEnd t

variable {front back pieces : List Piece}

theorem exists_lastLine (pieces : List Piece) :
    ∃ (front : List Piece) (items : List Item), pieces = front ++ items.map .item ∧
      EndsLine front := by
  induction pieces using List.reverseRecOn with
  | nil => exact ⟨[], [], rfl, by simp [EndsLine]⟩
  | append_singleton pieces piece ih =>
    cases piece with
    | lineEnd t => exact ⟨pieces ++ [.lineEnd t], [], by simp, by simp [EndsLine]⟩
    | item item =>
      obtain ⟨front, items, rfl, ends⟩ := ih
      exact ⟨front, items ++ [item], by simp, ends⟩

theorem EndsLine.of_cons {piece : Piece} (h : EndsLine (piece :: pieces)) : EndsLine pieces := by
  cases pieces with
  | nil => simp [EndsLine]
  | cons other pieces => simpa [EndsLine] using h

theorem endsLine_closeLines (h : EndsLine pieces) : EndsLine (closeLines pieces) := by
  induction pieces using closeLines.induct with
  | case1 pieces ih =>
    have hrest := ih h.of_cons.of_cons
    rw [closeLines]
    cases hc : closeLines pieces with
    | nil => simp [EndsLine]
    | cons piece more => simpa [EndsLine, hc] using hrest
  | case2 piece pieces hne ih =>
    have hrest := ih h.of_cons
    have hself : closeLines (piece :: pieces) = piece :: closeLines pieces := by
      rw [closeLines]
      simpa using hne
    rw [hself]
    cases hc : closeLines pieces with
    | nil =>
      cases pieces with
      | nil => exact h
      | cons other pieces =>
        rw [closeLines.eq_def] at hc
        split at hc
        · cases hc
        · cases hc
        · contradiction
    | cons other more => simpa [EndsLine, hc] using hrest
  | case3 => exact h

theorem apart_of_endsLine (h : EndsLine front) : Apart front back := by
  rintro before rfl
  obtain ⟨t, ht⟩ := h (.item (.text ['\r'])) (by simp)
  cases ht

theorem apart_of_getLast? {items : List Item} (h : items.getLast? ≠ some (.text ['\r'])) :
    Apart (items.map .item) back := by
  intro before hb
  obtain ⟨items, more, rfl, rfl, hmore⟩ := List.map_eq_append_iff.1 hb
  obtain ⟨last, rest, rfl, hl, hr⟩ := List.map_eq_cons_iff.1 hmore
  obtain rfl := List.map_eq_nil_iff.1 hr
  cases hl
  exact absurd (by simp) h

theorem events_append_of_endsLine (h : EndsLine front) (back : List Piece) :
    events (front ++ back) = events front ++ events back := by
  rcases List.eq_nil_or_concat front with rfl | ⟨before, last, rfl⟩
  · rfl
  · obtain ⟨t, rfl⟩ := h last (by simp)
    rw [List.concat_eq_append, events_append]

/-- Complete lines give their events whatever follows, also before line ends are put together. -/
theorem events_closeLines_append (h : EndsLine front) (back : List Piece) :
    events (closeLines (front ++ back)) = events (closeLines front) ++ events (closeLines back) := by
  rw [closeLines_append (apart_of_endsLine h), events_append_of_endsLine (endsLine_closeLines h)]

/-- Every line end is a line feed by itself. -/
def Atomic (pieces : List Piece) : Prop :=
  ∀ t, .lineEnd t ∈ pieces → t = ['\n']

theorem atomic_atoms (pieces : List Piece) : Atomic (pieces.flatMap atoms) := by
  intro t ht
  obtain ⟨piece, -, ht⟩ := List.mem_flatMap.1 ht
  have hchar : ∀ s : Text, .lineEnd t ∈ s.map ofChar → t = ['\n'] := by
    intro s hs
    obtain ⟨c, -, hc⟩ := List.mem_map.1 hs
    unfold ofChar at hc
    split at hc <;> cases hc
    rfl
  cases piece with
  | lineEnd s => exact hchar _ ht
  | item item =>
    cases item with
    | text s => exact hchar _ ht
    | tag placed => simp [atoms] at ht

/-- The line before is over: what is left, if anything, starts with its line feed. -/
def Feeds (pieces : List Piece) : Prop :=
  ∀ next ∈ pieces.head?, next = .lineEnd ['\n']

theorem feeds_nil : Feeds [] := by
  simp [Feeds]

theorem Feeds.shift (h : Feeds pieces) (k : Nat) : Feeds (pieces.map (shift k)) := by
  intro next hn
  rw [List.head?_map] at hn
  obtain ⟨other, hother, rfl⟩ := Option.map_eq_some_iff.1 hn
  rw [h other hother]
  rfl

theorem exists_firstLine (h : Atomic pieces) :
    ∃ (items : List Item) (back : List Piece), pieces = items.map .item ++ back ∧ Feeds back := by
  induction pieces with
  | nil => exact ⟨[], [], rfl, feeds_nil⟩
  | cons piece pieces ih =>
    cases piece with
    | lineEnd t =>
      obtain rfl := h t (List.mem_cons_self ..)
      exact ⟨[], .lineEnd ['\n'] :: pieces, rfl, by simp [Feeds]⟩
    | item item =>
      obtain ⟨items, back, rfl, hnext⟩ := ih fun t ht => h t (List.mem_cons_of_mem _ ht)
      exact ⟨item :: items, back, rfl, hnext⟩

theorem map_shift_items (k : Nat) (items : List Item) :
    (items.map Piece.item).map (shift k) = (items.map (Item.shift k)).map .item := by
  rw [List.map_map, List.map_map]
  exact List.map_congr_left fun item _ => shift_item k item

/-- Only tags are elsewhere in a source that is moved. -/
theorem eq_of_shift {k : Nat} {piece other : Piece} (plain : ∀ placed, other ≠ .item (.tag placed))
    (h : piece.shift k = other) : piece = other := by
  cases piece with
  | lineEnd t => exact h
  | item item =>
    cases item with
    | text t => exact h
    | tag placed => exact absurd h.symm (plain _)

theorem map_shift_closeLines (k : Nat) (pieces : List Piece) :
    (closeLines pieces).map (shift k) = closeLines (pieces.map (shift k)) := by
  induction pieces using closeLines.induct with
  | case1 pieces ih => simp [closeLines, shift, ih]
  | case2 piece pieces hne ih =>
    have hshift : ∀ more, piece.shift k = .item (.text ['\r']) →
        pieces.map (shift k) = .lineEnd ['\n'] :: more → False := by
      intro more hp hm
      obtain ⟨next, rest, rfl, hnext, -⟩ := List.map_eq_cons_iff.1 hm
      exact hne rest (eq_of_shift (by simp) hp) (by rw [eq_of_shift (by simp) hnext])
    rw [closeLines_cons (apart_single hne), List.map_cons, List.map_cons, ih,
      closeLines_cons (apart_single hshift)]
  | case3 => rfl

end Piece

namespace Line

open Piece (closeLines spread)

/-- The items of a line without the carriage return that goes to its line end. -/
def body (items : List Item) (back : List Piece) : List Item :=
  if items.getLast? = some (.text ['\r']) ∧ back ≠ [] then items.dropLast else items

variable {items front rest : List Item} {item : Item} {back : List Piece} {placed : PlacedTag}

/-- All items but a carriage return at the end are in the body. -/
theorem body_append_cons (h : item = .text ['\r'] → rest = [] → back = []) :
    ∃ more, body (front ++ item :: rest) back = front ++ item :: more := by
  unfold body
  split
  · rename_i hlast
    obtain ⟨hlast, hback⟩ := hlast
    rcases List.eq_nil_or_concat rest with rfl | ⟨rest, last, rfl⟩
    · exact absurd (h (by simpa using hlast) rfl) hback
    · refine ⟨rest, ?_⟩
      rw [List.concat_eq_append, ← List.cons_append, ← List.append_assoc, List.dropLast_concat]
  · exact ⟨rest, rfl⟩

theorem events_map_append (items : List Item) (t : Text) (back : List Piece) :
    Piece.events (items.map .item ++ .lineEnd t :: back) = events ⟨items, t⟩ ++ Piece.events back := by
  simp [Piece.events, split_items, split, onFirst]

/-- The line that items are with what follows them. -/
theorem exists_events_closeLines (items : List Item) (hback : Piece.Feeds back) :
    ∃ terminator, Piece.events (closeLines (items.map .item ++ back)) =
        events ⟨body items back, terminator⟩ ++ Piece.events (closeLines back.tail) ∧
      ∀ indent, spell (spread indent ((body items back).map .item ++ ending terminator)) =
        spell (spread indent (items.map .item ++ back.take 1)) := by
  cases back with
  | nil =>
    have hbody : body items [] = items := if_neg (by simp)
    refine ⟨[], ?_, fun indent => ?_⟩
    · rw [List.append_nil, Piece.closeLines_items, hbody]
      have hsplit := split_items items []
      rw [List.append_nil] at hsplit
      simp [Piece.events, hsplit, split, onFirst, closeLines, events, lone?, inlineEvents]
    · rw [hbody]
      rfl
  | cons next after =>
    obtain rfl := hback next (by simp)
    by_cases hlast : items.getLast? = some (.text ['\r'])
    · obtain ⟨front, rfl⟩ := List.getLast?_eq_some_iff.1 hlast
      have hbody : body (front ++ [.text ['\r']]) (.lineEnd ['\n'] :: after) = front := by
        rw [body, if_pos ⟨hlast, by simp⟩, List.dropLast_concat]
      refine ⟨['\r', '\n'], ?_, fun indent => ?_⟩
      · have hapart : Piece.Apart (front.map .item)
            (.item (.text ['\r']) :: .lineEnd ['\n'] :: after) := by simp [Piece.Apart]
        rw [hbody, List.map_append, List.append_assoc]
        change Piece.events (closeLines (front.map .item ++
          .item (.text ['\r']) :: .lineEnd ['\n'] :: after)) = _
        rw [Piece.closeLines_append hapart, Piece.closeLines_items, closeLines, events_map_append]
        rfl
      · rw [hbody, List.map_append, List.append_assoc, Piece.spread_append, Piece.spread_append]
        simp [ending, Event.spell_cons, Event.chars, spread, Piece.outside]
    · have hbody : body items (.lineEnd ['\n'] :: after) = items := if_neg fun h => hlast h.1
      refine ⟨['\n'], ?_, fun indent => ?_⟩
      · have hapart := @Piece.apart_of_getLast? (.lineEnd ['\n'] :: after) items hlast
        have hend : closeLines (.lineEnd ['\n'] :: after) = .lineEnd ['\n'] :: closeLines after :=
          Piece.closeLines_cons fun before hb => by
            cases before <;> simp at hb
        rw [hbody, Piece.closeLines_append hapart, Piece.closeLines_items, hend, events_map_append]
        rfl
      · rw [hbody]
        rfl

variable (hback : Piece.Feeds back)
include hback

/-- A line that keeps its text keeps it up to its line feed. -/
theorem spell_events_closeLines (keeps : lone? (body items back) = none) :
    spell (Piece.events (closeLines (items.map .item ++ back))) =
      spell (spread (.inline (preceding (body items back))) (items.map .item ++ back.take 1)) ++
        spell (Piece.events (closeLines back.tail)) := by
  obtain ⟨terminator, hevents, hspell⟩ := exists_events_closeLines items hback
  rw [hevents, Event.spell_append, events_of_none keeps, hspell]

theorem exists_standalone (lone : lone? (body items back) = some placed) :
    ∃ padding, .tag placed (.standalone padding) ∈
      Piece.events (closeLines (items.map .item ++ back)) := by
  obtain ⟨terminator, hevents, -⟩ := exists_events_closeLines items hback
  rw [hevents, events, lone]
  exact ⟨_, List.mem_append_left _ (List.mem_singleton_self _)⟩

omit hback

theorem lone?_of_solid {c : Char} (h : .text [c] ∈ items) (space : c ≠ ' ') (tab : c ≠ '\t') :
    lone? items = none := by
  have hall : items.all admitsLone = false := by
    rw [List.all_eq_false]
    exact ⟨_, h, by simp [admitsLone, isBlank, space, tab]⟩
  unfold lone?
  rw [hall]
  split <;> rfl

/-- A tag that is given no padding for its own line does not stand alone there. -/
theorem keeps_of_kept (kept : ∀ indent, .tag placed indent ∈
      Piece.events (closeLines ((front ++ .tag placed :: rest).map .item ++ back)) →
        indent.firstLine = false) (hback : Piece.Feeds back) :
    lone? (body (front ++ .tag placed :: rest) back) = none := by
  obtain ⟨more, hmore⟩ := @body_append_cons front rest (.tag placed) back (by simp)
  have hmem : placed ∈ (front ++ .tag placed :: more).filterMap placed? :=
    List.mem_filterMap.2 ⟨.tag placed, by simp, rfl⟩
  by_contra hsome
  rw [← ne_eq, ← Option.isSome_iff_ne_none, hmore, ← lone?_eq_some_iff hmem, ← hmore] at hsome
  obtain ⟨padding, he⟩ := exists_standalone hback hsome
  cases kept _ he

/-- Nor does any tag beside a character that is no blank, unless that is a part of the line end. -/
theorem keeps_of_solid {c : Char} (space : c ≠ ' ') (tab : c ≠ '\t')
    (whole : c = '\r' → rest = [] → back = []) :
    lone? (body (front ++ .text [c] :: rest) back) = none := by
  obtain ⟨more, hmore⟩ := @body_append_cons front rest (.text [c]) back (by simpa using whole)
  rw [hmore]
  exact lone?_of_solid (by simp) space tab

theorem preceding_append_of_tag (h : Piece.tags (front.map .item) ≠ []) (rest : List Item) :
    preceding (front ++ rest) = preceding front := by
  induction front with
  | nil => exact absurd rfl h
  | cons item front ih =>
    cases item with
    | text t => rw [List.cons_append, preceding, preceding, ih (by simpa using h)]
    | tag placed => rfl

end Line

namespace Event

variable {events others : List Event}

theorem Same.shifts (e : Event) (k m : Nat) : (e.shift k).Same (e.shift m) := by
  cases e with
  | text t => exact .text t
  | tag placed indent => exact .tag rfl fun _ => rfl

theorem forall₂_shifts (events : List Event) (k m : Nat) :
    List.Forall₂ Same (events.map (shift k)) (events.map (shift m)) := by
  rw [List.forall₂_map_left_iff, List.forall₂_map_right_iff, List.forall₂_same]
  exact fun e _ => .shifts e k m

theorem forall₂_spell (h : List.Forall₂ Same events others) :
    List.Forall₂ Same (spell events) (spell others) := by
  induction h with
  | nil => exact .nil
  | cons same _ ih =>
    rw [spell_cons, spell_cons]
    refine List.rel_append ?_ ih
    cases same with
    | text t => exact List.forall₂_same.2 fun e _ => .refl e
    | tag same indented => exact .cons (.tag same indented) .nil

end Event

namespace Piece

variable {front pieces : List Piece} {placed : PlacedTag}

/-- Only partials tell their indentations apart. -/
theorem forall₂_spread (plain : ∀ found ∈ tags pieces, found.tag.sigil ≠ .inclusion) (k m : Nat)
    (indent other : Indent) : List.Forall₂ Event.Same (spread indent (pieces.map (shift k)))
      (spread other (pieces.map (shift m))) := by
  induction pieces generalizing indent other with
  | nil => exact .nil
  | cons piece pieces ih =>
    cases piece with
    | lineEnd t => exact .cons (.text t) (ih (by simpa using plain) indent other)
    | item item =>
      cases item with
      | text t => exact .cons (.text t) (ih (by simpa using plain) indent other)
      | tag found =>
        rw [tags_tag] at plain
        refine .cons (.tag rfl fun hs => ?_) (ih (fun p hp => plain p (List.mem_cons_of_mem _ hp)) _ _)
        exact absurd hs (plain found (List.mem_cons_self ..))

/-- The events of other pieces for a tag that shares its line. -/
def Inlined (placed : PlacedTag) (inner : List Piece) (found : PlacedTag) (indent : Indent)
    (more : List Event) : Prop :=
  found = placed ∧ indent.firstLine = false ∧ ∃ other, more = spell (spread other inner)

/-- On the line of the tag the events go together. -/
theorem exchanged_line {before inner : List Item} {line : List Piece} {k m : Nat}
    {first second : Indent} (alike : tags (before.map .item) ≠ [] → first = second)
    (kept : first.firstLine = false)
    (plain : ∀ found ∈ tags line, found.tag.sigil ≠ .inclusion) :
    Event.Exchanged (Inlined placed (inner.map .item))
      (spell (spread first (before.map .item ++ .item (.tag placed) :: line.map (shift k))))
      (spell (spread second (before.map .item ++ (inner.map .item ++ line.map (shift m))))) := by
  have hbefore : spread second (before.map .item) = spread first (before.map .item) := by
    by_cases htags : tags (before.map .item) = []
    · exact spread_congr htags
    · rw [alike htags]
  rw [spread_append, spread_append second, spread_append _ (inner.map .item), spread_tag, hbefore,
    Event.spell_append, Event.spell_append, Event.spell_append, Event.spell_cons]
  refine .append (.of_same (List.forall₂_same.2 fun e _ => .refl e)) (.instead ⟨rfl, ?_, _, rfl⟩ ?_)
  · split
    · exact kept
    · rfl
  · exact .of_same (Event.forall₂_spell (forall₂_spread plain k m _ _))

/-- Lines before a line that keeps its text, this line up to its line feed, and the lines after. -/
theorem spell_events_lines {lines rest : List Piece} {items : List Item} (ends : EndsLine lines)
    (hrest : Feeds rest)
    (keeps : Line.lone? (Line.body items rest) = none) :
    spell (events (closeLines (lines ++ (items.map .item ++ rest)))) =
      spell (events (closeLines lines)) ++
        (spell (spread (.inline (Line.preceding (Line.body items rest)))
          (items.map .item ++ rest.take 1)) ++ spell (events (closeLines rest.tail))) := by
  rw [events_closeLines_append ends, Event.spell_append, Line.spell_events_closeLines hrest keeps]

/-- With the items of the line around the tag told, the events before its line, on it and after it go
together. -/
theorem exchanged_lines {lines rest : List Piece} {before inner after : List Item} {k m : Nat}
    (ends : EndsLine lines) (hrest : Feeds rest)
    (kept : Line.lone? (Line.body (before ++ .tag placed :: after.map (Item.shift k))
      (rest.map (shift k))) = none)
    (keeps : Line.lone? (Line.body (before ++ (inner ++ after.map (Item.shift m)))
      (rest.map (shift m))) = none)
    (alike : tags (before.map .item) ≠ [] →
      Line.preceding (Line.body (before ++ .tag placed :: after.map (Item.shift k))
          (rest.map (shift k))) =
        Line.preceding (Line.body (before ++ (inner ++ after.map (Item.shift m)))
          (rest.map (shift m))))
    (plain : ∀ found ∈ tags (after.map .item), found.tag.sigil ≠ .inclusion) :
    Event.Exchanged (Inlined placed (inner.map .item))
      (spell (events (closeLines (lines ++ ((before ++ .tag placed :: after.map (Item.shift k)).map
        .item ++ rest.map (shift k))))))
      (spell (events (closeLines (lines ++ ((before ++ (inner ++ after.map (Item.shift m))).map .item ++
        rest.map (shift m)))))) := by
  have hline : ∀ k, (after.map (Item.shift k)).map Piece.item ++ (rest.map (shift k)).take 1 =
      (after.map Piece.item ++ rest.take 1).map (shift k) := by
    intro k
    rw [List.map_append, ← map_shift_items, List.map_take]
  have htags : tags (rest.take 1) = [] := by
    cases rest with
    | nil => rfl
    | cons next rest =>
      obtain rfl := hrest next rfl
      rfl
  rw [spell_events_lines ends (hrest.shift k) kept, spell_events_lines ends (hrest.shift m) keeps]
  refine .append (.of_same (List.forall₂_same.2 fun e _ => .refl e)) (.append ?_ (.of_same ?_))
  · have hexchanged := @exchanged_line placed before inner (after.map .item ++ rest.take 1) k m
      _ _ (fun h => congrArg Indent.inline (alike h)) rfl (by simpa [htags] using plain)
    simpa [← hline] using hexchanged
  · rw [← List.map_tail, ← List.map_tail, ← map_shift_closeLines, ← map_shift_closeLines,
      events_map_shift, events_map_shift]
    exact Event.forall₂_spell (Event.forall₂_shifts _ k m)

/-- Where a tag does not stand alone, items with a character that is no blank may take its place. -/
theorem exchanged_splice {inner : List Item} {back : List Piece} {k m : Nat} (atomic : Atomic back)
    (kept : ∀ indent, .tag placed indent ∈
      events (closeLines (front ++ .item (.tag placed) :: back.map (shift k))) →
        indent.firstLine = false)
    (solid : ∃ u c v, inner = u ++ .text [c] :: v ∧ c ≠ ' ' ∧ c ≠ '\t' ∧
      (c = '\r' → v = [] → back.head? ≠ some (.lineEnd ['\n'])))
    (plain : ∀ (items : List Item) rest, back = items.map .item ++ rest →
      ∀ found ∈ tags (items.map .item), found.tag.sigil ≠ .inclusion) :
    Event.Exchanged (Inlined placed (inner.map .item))
      (spell (events (closeLines (front ++ .item (.tag placed) :: back.map (shift k)))))
      (spell (events (closeLines (front ++ (inner.map .item ++ back.map (shift m)))))) := by
  obtain ⟨lines, before, rfl, ends⟩ := exists_lastLine front
  obtain ⟨after, rest, rfl, hrest⟩ := exists_firstLine atomic
  -- Both sources are the lines before, the items of the line, and what starts with its line feed.
  have hfirst : lines ++ before.map .item ++
      .item (.tag placed) :: (after.map Piece.item ++ rest).map (shift k) = lines ++
        ((before ++ .tag placed :: after.map (Item.shift k)).map .item ++ rest.map (shift k)) := by
    rw [List.map_append, map_shift_items]
    simp
  have hsecond : lines ++ before.map .item ++
      (inner.map .item ++ (after.map Piece.item ++ rest).map (shift m)) = lines ++
        ((before ++ (inner ++ after.map (Item.shift m))).map .item ++ rest.map (shift m)) := by
    rw [List.map_append, map_shift_items]
    simp
  rw [hfirst] at kept ⊢
  rw [hsecond]
  obtain ⟨u, c, v, rfl, space, tab, hreturn⟩ := solid
  have hwhole : c = '\r' → v ++ after.map (Item.shift m) = [] → rest.map (shift m) = [] := by
    intro hc hv
    obtain ⟨rfl, ha⟩ := List.append_eq_nil_iff.1 hv
    obtain rfl := List.map_eq_nil_iff.1 ha
    cases rest with
    | nil => rfl
    | cons next rest =>
      obtain rfl := hrest next rfl
      exact absurd rfl (hreturn hc rfl)
  have hitems : before ++ (u ++ .text [c] :: v ++ after.map (Item.shift m)) =
      (before ++ u) ++ .text [c] :: (v ++ after.map (Item.shift m)) := by simp
  refine exchanged_lines ends hrest ?_ ?_ ?_ (plain after rest rfl)
  · rw [events_closeLines_append ends] at kept
    exact Line.keeps_of_kept (fun indent he => kept indent (List.mem_append_right _ he)) (hrest.shift k)
  · rw [hitems]
    exact Line.keeps_of_solid space tab hwhole
  · intro htags
    obtain ⟨more, hmore⟩ := @Line.body_append_cons before (after.map (Item.shift k)) (.tag placed)
      (rest.map (shift k)) (by simp)
    obtain ⟨others, hothers⟩ := @Line.body_append_cons (before ++ u) (v ++ after.map (Item.shift m))
      (.text [c]) (rest.map (shift m)) (by simpa using hwhole)
    rw [hmore, hitems, hothers, List.append_assoc, Line.preceding_append_of_tag htags,
      Line.preceding_append_of_tag htags]

end Piece
end Stencil
