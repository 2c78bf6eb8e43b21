import Stencil.Proofs.Template.Faults
import Stencil.Proofs.Text.Boundary

/-!
# Spans

Where the nodes of a template stand in its source. The tags of a source follow each other, each can
be cut out of it, and a node spans its tag, or a section all from its opening tag to its closing tag.
So siblings keep apart, a section holds its nodes between its tags, and what is cut there is its raw
text.
-/

namespace Stencil

theorem Token.Ends.terminator_eq {closing rest body terminator : Text} {kind : TokenKind}
    (h : Ends closing rest kind body terminator) :
    terminator = closing ∨ terminator = '}' :: closing := by
  cases h with
  | change => exact .inl rfl
  | triple => exact .inr rfl
  | ordinary => exact .inl rfl

/-- One span ends before the other starts. -/
def Span.Before (a b : Span) : Prop :=
  a.stop ≤ b.start

namespace Tokens

/-- The tags that are read, of a source that can be read to its end or not, follow each other, and
none is empty. -/
theorem ordered_read (source : Text) (tags : Tags) (start : Nat) (rest : Text) :
    let placed := Piece.tags (read source tags start rest).1
    (∀ tag ∈ placed, start ≤ tag.span.start ∧ tag.span.start < tag.span.stop) ∧
      placed.Pairwise fun a b => a.span.Before b.span := by
  refine scanFrom_induction source (motive := fun tags start rest tokens => ∀ failure : Option Error,
    let placed := Piece.tags (Piece.ofTokens source failure none none tags tokens.list).1
    (∀ tag ∈ placed, start ≤ tag.span.start ∧ tag.span.start < tag.span.stop) ∧
      placed.Pairwise fun a b => a.span.Before b.span)
    ?invalid ?text ?malformed ?tag tags start rest _
  case invalid =>
    intro tags start rest invalid failure
    simp [Piece.ofTokens]
  case text =>
    intro tags start rest valid none failure
    rw [← List.append_nil (Token.run start rest), Piece.ofTokens_run]
    simp [Piece.ofTokens]
  case malformed =>
    intro tags start rest before inside fault valid opens malformed failure
    rw [Piece.ofTokens_run]
    simp [Piece.ofTokens]
  case tag =>
    intro tags start rest before inside found next tokens valid opens reads changes ih failure
    obtain ⟨hfrom, hordered⟩ := ih failure
    simp only [prepend, List.append_assoc, List.cons_append, List.nil_append]
    rw [Piece.ofTokens_run, Piece.ofTokens_tag rfl (Token.Inside.kind_of_read? reads) rfl changes]
    simp only [Piece.tags_append, Piece.tags_ofText, Piece.tags_tag, List.nil_append,
      List.forall_mem_cons, List.pairwise_cons]
    have hopening : tags.opening.size ≠ 0 := fun h => valid.opening_ne_nil (Text.size_eq_zero_iff.1 h)
    refine ⟨⟨⟨Nat.le_add_right .., ?_⟩, fun tag hmem => ?_⟩, fun tag hmem => ?_, hordered⟩
    · simp only [Token.stop]
      omega
    · have := hfrom tag hmem
      omega
    · have := (hfrom tag hmem).1
      simp only [Span.Before, Token.stop]
      omega

end Tokens

/-- A tag as it stands in its source. It is made of three tokens of the scan, the pair that it has is
the one that the scanner has in effect before them, and between its two ends the source has the
delimiters of this pair around the rest of the tag. -/
structure PlacedTag.Stands (source : Text) (tags : Tags) (placed : PlacedTag) : Prop where
  inEffect : ∃ front opening body closing before,
    Token.WholeTag (Tokens.scan source tags).list front opening body closing ∧
      Scanner.Yields source (.start tags) front before ∧
      placed = ⟨.parse body.raw, ⟨opening.start, closing.stop⟩, before.tags⟩
  range : placed.span.start < placed.span.stop ∧ placed.span.stop ≤ source.size
  cut : ∃ inner, source.cut? placed.span.start placed.span.stop =
    some (placed.tags.opening ++ (inner ++ placed.tags.closing))

/-- A section as it stands in its source, between two tags with balanced tags between them. -/
structure Span.Encloses (source : Text) (tags : Tags) (span : Span) (opener closer : PlacedTag)
    (raw : Text) : Prop where
  matched : ∃ front inner back, Template.placed source tags =
    front ++ opener :: (inner ++ closer :: back) ∧ Sections.Balanced inner
  opens : opener.tag.sigil.opens = true
  closes : closer.tag.sigil = .close
  ends : span = ⟨opener.span.start, closer.span.stop⟩
  within : span.start ≤ opener.span.stop ∧ opener.span.stop ≤ closer.span.start ∧
    closer.span.start ≤ span.stop
  cut : ∃ inner, source.cut? span.start span.stop =
    some (opener.tags.opening ++ (inner ++ closer.tags.closing))
  raw : source.cut? opener.span.stop closer.span.start = some raw

/-- The three tokens of a tag are cut out as one, with the delimiters that the scanner has in effect
at its ends. -/
theorem Token.WholeTag.exists_cut {source : Text} {tags : Tags} {front : List Token}
    {opening body closing : Token} {before : Scanner}
    (h : WholeTag (Tokens.scan source tags).list front opening body closing)
    (hfront : Scanner.Yields source (.start tags) front before) :
    ∃ inner, source.cut? opening.start closing.stop =
      some (before.tags.opening ++ (inner ++ before.tags.closing)) := by
  obtain ⟨opens, back, list⟩ := h
  have hpart := Tokens.Partition.of_scan source tags
  have hstart : (Scanner.start tags).Knows (tags, none) := ⟨rfl, rfl⟩
  have htags : before.tags = inEffect tags front := (hfront.knows hstart).1
  have hslice : ∀ token ∈ [opening, body, closing],
      source.cut? token.start token.stop = some token.raw := by
    intro token hmem
    refine hpart.slices token ?_
    rw [list]
    simp only [List.mem_cons, List.not_mem_nil, or_false] at hmem
    rcases hmem with rfl | rfl | rfl <;> simp
  have hconsecutive := hpart.consecutive
  rw [list] at hconsecutive
  obtain ⟨-, -, hbody, hclosing, -⟩ := consecutive_append.1 hconsecutive
  have hcut := Text.cut?_trans (hslice opening (by simp))
    (hbody ▸ Text.cut?_trans (hslice body (by simp)) (hclosing ▸ hslice closing (by simp)))
  rw [hpart.openings front opening _ list opens, ← htags] at hcut
  have hends := hpart.ends front opening body closing back list opens
  rw [← htags] at hends
  rcases hends.terminator_eq with hterminator | hterminator <;> rw [hterminator] at hcut
  · exact ⟨body.raw, hcut⟩
  · exact ⟨body.raw ++ ['}'], by simpa using hcut⟩

namespace Template

variable {source : Text} {tags : Tags} {tag opener closer : PlacedTag}

theorem pairwise_placed (source : Text) (tags : Tags) :
    (placed source tags).Pairwise fun a b => a.span.Before b.span :=
  (Tokens.ordered_read source tags 0 source).2

/-- Every tag stands in the source. -/
theorem stands_of_mem (h : tag ∈ placed source tags) : tag.Stands source tags := by
  have hrange := ((Tokens.ordered_read source tags 0 source).1 tag h).2
  obtain ⟨front, opening, body, closing, before, hwhole, hfront, rfl⟩ := exists_wholeTag_of_mem h
  obtain ⟨inner, hcut⟩ := hwhole.exists_cut hfront
  exact ⟨⟨front, opening, body, closing, before, hwhole, hfront, rfl⟩,
    ⟨hrange, (Text.le_of_cut? hcut).2⟩, inner, hcut⟩

/-- Between two tags of a source there is a part of it. -/
theorem cut?_between (hopener : opener ∈ placed source tags) (hcloser : closer ∈ placed source tags)
    (before : opener.span.Before closer.span) : source.cut? opener.span.stop closer.span.start =
      some (source.slice opener.span.stop closer.span.start) := by
  obtain ⟨-, -, first, hfirst⟩ := stands_of_mem hopener
  obtain ⟨-, -, last, hlast⟩ := stands_of_mem hcloser
  exact Text.cut?_of_isBoundary before (Text.isBoundary_of_cut? hfirst).2
    (Text.isBoundary_of_cut? hlast).1

/-- Balanced tags and the two around them, if these open and close a section, make one. -/
theorem encloses {front inner back : List PlacedTag}
    (split : placed source tags = front ++ opener :: (inner ++ closer :: back))
    (balanced : Sections.Balanced inner) (opens : opener.tag.sigil.opens = true)
    (closes : closer.tag.sigil = .close) :
    Span.Encloses source tags ⟨opener.span.start, closer.span.stop⟩ opener closer
      (source.slice opener.span.stop closer.span.start) := by
  have hopener : opener ∈ placed source tags := by simp [split]
  have hcloser : closer ∈ placed source tags := by simp [split]
  have before : opener.span.Before closer.span := by
    have hordered := pairwise_placed source tags
    rw [split] at hordered
    exact (List.pairwise_cons.1 (List.pairwise_append.1 hordered).2.1).1 closer (by simp)
  obtain ⟨-, -, first, hfirst⟩ := stands_of_mem hopener
  obtain ⟨-, -, last, hlast⟩ := stands_of_mem hcloser
  have hbetween := cut?_between hopener hcloser before
  have hall := Text.cut?_trans hfirst (Text.cut?_trans hbetween hlast)
  refine ⟨⟨front, inner, back, split, balanced⟩, opens, closes, rfl, ?_, ?_, hbetween⟩
  · exact ⟨(Text.le_of_cut? hfirst).1, before, (Text.le_of_cut? hlast).1⟩
  · exact ⟨first ++ (opener.tags.closing ++ (source.slice opener.span.stop closer.span.start ++
      (closer.tags.opening ++ last))), by simpa using hall⟩

end Template

/-- The bytes that a node has been written with. A text or a comment keeps none. -/
def Node.span? : Node → Option Span
  | .interpolation _ _ span | .inclusion _ _ span | .block _ _ _ _ _ span => some span
  | .text _ | .comment _ => none

/-- The spans of nodes side by side. -/
def Node.spans (nodes : List Node) : List Span :=
  nodes.filterMap Node.span?

@[simp] theorem Node.spans_append (front back : List Node) :
    spans (front ++ back) = spans front ++ spans back :=
  List.filterMap_append

@[simp] theorem Node.spans_text (t : Text) : spans [.text t] = [] := rfl

@[simp] theorem PlacedTag.spans_enclose (source : Text) (opener closer : PlacedTag)
    (children : List Node) : Node.spans [opener.enclose source closer children] =
      [⟨opener.span.start, closer.span.stop⟩] := rfl

/-- A tag by itself gives one span at most, its own. -/
theorem PlacedTag.spans_single (placed : PlacedTag) (indent : Indent) :
    Node.spans (placed.single indent) = [] ∨ Node.spans (placed.single indent) = [placed.span] := by
  unfold single
  cases placed.tag.sigil with
  | escaped | ampersand | triple | inclusion => exact .inr rfl
  | _ => exact .inl rfl

theorem PlacedTag.span_of_mem_single {placed : PlacedTag} {indent : Indent} {node : Node}
    {span : Span} (h : node ∈ placed.single indent) (hs : node.span? = some span) :
    span = placed.span := by
  have hspan : span ∈ Node.spans (placed.single indent) := List.mem_filterMap.2 ⟨node, h, hs⟩
  rcases placed.spans_single indent with hnone | hone
  · simp [hnone] at hspan
  · simpa [hone] using hspan

namespace Nested

variable {source : Text} {events : List Event} {nodes : List Node} {node : Node} {span : Span}

/-- A span anywhere in a tree goes from a tag to a tag, which may be the same. -/
theorem exists_ends (h : Nested source events nodes) (hw : Within node nodes)
    (hs : node.span? = some span) : ∃ first ∈ Event.tags events, ∃ last ∈ Event.tags events,
      span = ⟨first.span.start, last.span.stop⟩ := by
  cases h.origin hw with
  | text t => cases hs
  | @single placed indent _ mem single =>
    have hmem : placed ∈ Event.tags events := List.mem_filterMap.2 ⟨_, mem, rfl⟩
    exact ⟨placed, hmem, placed, hmem, PlacedTag.span_of_mem_single single hs⟩
  | @block opener closer inner _ bracketed =>
    obtain ⟨front, i, j, back, rfl⟩ := bracketed
    exact ⟨opener, by simp, closer, by simp, (Option.some.inj hs).symm⟩

/-- A span that starts with a later tag comes after all the spans before it. -/
theorem apart_snoc {later : PlacedTag} (h : Nested source events nodes)
    (apart : (Node.spans nodes).Pairwise Span.Before)
    (after : ∀ tag ∈ Event.tags events, tag.span.Before later.span)
    (starts : span.start = later.span.start) :
    (Node.spans nodes ++ [span]).Pairwise Span.Before := by
  refine List.pairwise_append.2 ⟨apart, List.pairwise_singleton .., fun other hother => ?_⟩
  obtain ⟨node, hmem, hnode⟩ := List.mem_filterMap.1 hother
  obtain ⟨-, -, last, hlast, rfl⟩ := h.exists_ends (.here hmem) hnode
  simpa [Span.Before, starts] using after last hlast

/-- Siblings are written one after the other. -/
theorem apart (h : Nested source events nodes)
    (ordered : (Event.tags events).Pairwise fun a b => a.span.Before b.span) :
    (Node.spans nodes).Pairwise Span.Before := by
  induction h with
  | nil => exact .nil
  | text t _ _ ih => simpa using ih (by simpa using ordered)
  | more u t _ ih => simpa using ih (by simpa using ordered)
  | @single _ _ placed indent _ front ih =>
    rw [Event.tags_append, List.pairwise_append] at ordered
    obtain ⟨hfront, -, hlater⟩ := ordered
    rw [Node.spans_append]
    rcases placed.spans_single indent with hnone | hone
    · simpa [hnone] using ih hfront
    · rw [hone]
      exact front.apart_snoc (ih hfront) (fun tag htag => hlater tag htag placed (by simp)) rfl
  | @block _ _ _ _ opener closer _ _ _ _ _ front _ ih _ =>
    rw [Event.tags_append, List.pairwise_append] at ordered
    obtain ⟨hfront, -, hlater⟩ := ordered
    rw [Node.spans_append, PlacedTag.spans_enclose]
    exact front.apart_snoc (ih hfront) (fun tag htag => hlater tag htag opener (by simp)) rfl

/-- Siblings at every depth are written one after the other. -/
theorem apart_level {level : List Node} (h : Nested source events nodes)
    (ordered : (Event.tags events).Pairwise fun a b => a.span.Before b.span)
    (hl : Level nodes level) : (Node.spans level).Pairwise Span.Before := by
  rcases hl with rfl | ⟨path, inverted, raw, tags, span, hw⟩
  · exact h.apart ordered
  · obtain ⟨opener, inner, closer, ⟨front, i, j, back, rfl⟩, -, hn, -⟩ := h.block_of_within hw
    refine hn.apart (ordered.sublist ?_)
    simp only [Event.tags_append, Event.tags_tag]
    exact ((List.sublist_append_left ..).trans (List.sublist_cons_self ..)).trans
      (List.sublist_append_right ..)

end Nested

/-- A node in its place among the tags of a source. -/
inductive Node.Placed (source : Text) (tags : Tags) : Node → Prop
  | text (t : Text) : Placed source tags (.text t)
  | single {tag : PlacedTag} {indent : Indent} {node : Node}
    (mem : tag ∈ Template.placed source tags) (gives : node ∈ tag.single indent)
    (span : ∀ span, node.span? = some span → span = tag.span) : Placed source tags node
  | block {opener closer : PlacedTag} {children : List Node} {raw : Thunk Text} {span : Span}
    (encloses : span.Encloses source tags opener closer raw.get)
    (inside : ∀ node inner, Within node children → node.span? = some inner →
      opener.span.Before inner ∧ inner.Before closer.span) :
    Placed source tags (.block (.parse opener.tag.name) (opener.tag.sigil = .inverted) children raw
      opener.tags span)

namespace Template

variable {source : Text} {tags : Tags} {nodes : List Node}

/-- Every node is placed. -/
theorem placed_of_within (h : compile source tags = .ok nodes) {node : Node}
    (hw : Within node nodes) : node.Placed source tags := by
  obtain ⟨pieces, hr, hn⟩ := compile_eq_ok_iff_nested.1 h
  have hplaced : placed source tags = Event.tags (Piece.events pieces) := by
    rw [placed_of_reading hr, Piece.tags_events]
  cases hn.origin hw with
  | text t => exact .text t
  | @single placed indent _ mem single =>
    exact .single (hplaced ▸ List.mem_filterMap.2 ⟨_, mem, rfl⟩) single fun span =>
      PlacedTag.span_of_mem_single single
  | @block opener closer inner children bracketed opens closes within =>
    obtain ⟨front, i, j, back, hevents⟩ := bracketed
    have split : placed source tags = Event.tags front ++
        opener :: (Event.tags inner ++ closer :: Event.tags back) := by
      simp [hplaced, hevents]
    refine .block (encloses split (Builder.balanced_of_nested within) opens closes) ?_
    intro node inside hnode hs
    obtain ⟨first, hfirst, last, hlast, rfl⟩ := within.exists_ends hnode hs
    have hordered := pairwise_placed source tags
    rw [split, List.pairwise_append, List.pairwise_cons, List.pairwise_append] at hordered
    obtain ⟨-, ⟨hopener, -, -, hcloser⟩, -⟩ := hordered
    exact ⟨hopener first (by simp [hfirst]), hcloser last hlast closer (by simp)⟩

/-- While a section is open, what is between its opening tag and any tag that comes is a part of the
source, whether the source compiles or not. -/
theorem cut?_of_opened {front back : List Event} {closer : PlacedTag} {indent : Indent}
    {built : Builder source} {innermost : OpenSection source} {outer : List (OpenSection source)}
    (hevents : Piece.events (Tokens.read source tags 0 source).1 = front ++ .tag closer indent :: back)
    (hrun : (Builder.empty source).run front = .ok built) (hopened : built.opened = innermost :: outer) :
    source.cut? innermost.placed.span.stop closer.span.start =
      some (source.slice innermost.placed.span.stop closer.span.start) := by
  obtain ⟨before, inner, hfront, -⟩ := ((Builder.opened_of_run hrun).2 _ _ hopened).closed
  have split : placed source tags =
      before ++ innermost.placed :: (inner ++ closer :: Event.tags back) := by
    rw [placed, ← Piece.tags_events, hevents, Event.tags_append, hfront]
    simp
  have hordered := pairwise_placed source tags
  rw [split] at hordered
  have hmem : innermost.placed ∈ placed source tags ∧ closer ∈ placed source tags := by simp [split]
  exact cut?_between hmem.1 hmem.2
    ((List.pairwise_cons.1 (List.pairwise_append.1 hordered).2.1).1 closer (by simp))

/-- Spans and raw texts are exact. Each tag of a source can be cut out of it, with the delimiters in
effect there at its ends; the nodes of a template are placed among these tags; and siblings are
written one after the other. What a section keeps as its raw text is never cut out of range, even if
the source turns out not to compile. -/
theorem compile_spans (source : Text) (tags : Tags) :
    (∀ tag ∈ placed source tags, tag.Stands source tags) ∧
    (∀ nodes, compile source tags = .ok nodes →
      (∀ node, Within node nodes → node.Placed source tags) ∧
        ∀ level, Level nodes level → (Node.spans level).Pairwise Span.Before) ∧
    ∀ (front back : List Event) (closer : PlacedTag) (indent : Indent) (built : Builder source)
      (innermost : OpenSection source) (outer : List (OpenSection source)),
      Piece.events (Tokens.read source tags 0 source).1 = front ++ .tag closer indent :: back →
      (Builder.empty source).run front = .ok built → built.opened = innermost :: outer →
        source.cut? innermost.placed.span.stop closer.span.start =
          some (source.slice innermost.placed.span.stop closer.span.start) := by
  refine ⟨fun tag => stands_of_mem, fun nodes h => ⟨fun node => placed_of_within h, ?_⟩, ?_⟩
  · intro level hl
    obtain ⟨pieces, hr, hn⟩ := compile_eq_ok_iff_nested.1 h
    have hordered := pairwise_placed source tags
    rw [placed_of_reading hr, ← Piece.tags_events] at hordered
    exact hn.apart_level hordered hl
  · intro front back closer indent built innermost outer
    exact cut?_of_opened

/-- The events of the two sections up to where the inner one closes. -/
def innerEvents : List Event :=
  [.tag ⟨.parse "#a".toList, ⟨0, 6⟩, default⟩ default,
    .tag ⟨.parse "^b".toList, ⟨6, 12⟩, default⟩ default, .text ['-'],
    .tag ⟨.parse ['c'], ⟨13, 18⟩, default⟩ default]

theorem exists_opened_twoSections : ∃ built innermost outer,
    (Builder.empty twoSections).run innerEvents = .ok built ∧ built.opened = innermost :: outer :=
  ⟨_, _, _, rfl, rfl⟩

/-- Where the inner section of the two closes, both are open. -/
theorem compile_spans_twoSections :
    (∀ node, Within node twoSectionsNodes → node.Placed twoSections default) ∧
      (∀ level, Level twoSectionsNodes level → (Node.spans level).Pairwise Span.Before) ∧
      ∃ built : Builder twoSections, ∃ innermost outer,
        (Builder.empty twoSections).run innerEvents = .ok built ∧ built.opened = innermost :: outer ∧
        twoSections.cut? innermost.placed.span.stop 18 =
          some (twoSections.slice innermost.placed.span.stop 18) := by
  obtain ⟨-, hnodes, hraw⟩ := compile_spans twoSections default
  obtain ⟨hplaced, happart⟩ := hnodes _ compile_twoSections
  obtain ⟨built, innermost, outer, hrun, hopened⟩ := exists_opened_twoSections
  have hevents : Piece.events (Tokens.read twoSections default 0 twoSections).1 = innerEvents ++
      .tag ⟨.parse "/b".toList, ⟨18, 24⟩, default⟩ default ::
        (Piece.events (Tokens.read twoSections default 0 twoSections).1).drop 5 := by
    cbv
  exact ⟨hplaced, happart, built, innermost, outer, hrun, hopened,
    hraw _ _ _ _ _ _ _ hevents hrun hopened⟩

end Template
end Stencil
