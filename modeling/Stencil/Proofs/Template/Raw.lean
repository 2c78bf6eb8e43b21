import Stencil.Proofs.Template.Redraw

/-!
# The source of a section

A section keeps its source between the tags and the pair in effect there, and compiled again they
give its own nodes. Only the texts and the indentations may differ: what is cut off from its line
may stand alone, and what stood alone may have lost its line.
-/

namespace Stencil

mutual
/-- A node without its indentation, and without the texts in it; nothing for a text. -/
def Node.outline : Node → List Node
  | .text _ => []
  | .inclusion name _ span => [.inclusion name default span]
  | .block path inverted children raw tags span =>
    [.block path inverted (outlines children) raw tags span]
  | node => [node]

def Node.outlines : List Node → List Node
  | [] => []
  | node :: nodes => node.outline ++ outlines nodes
end

namespace Node

theorem outlines_append (front back : List Node) :
    outlines (front ++ back) = outlines front ++ outlines back := by
  induction front with
  | nil => rfl
  | cons node front ih => simp [outlines, ih]

theorem outlines_withoutTexts (nodes : List Node) : outlines (withoutTexts nodes) = outlines nodes := by
  induction nodes with
  | nil => rfl
  | cons node nodes ih =>
    have hcons := outlines_append (withoutTexts [node]) (withoutTexts nodes)
    rw [← withoutTexts_append, List.singleton_append, ih] at hcons
    rw [hcons]
    cases node <;> rfl

/-- Outlines that move one by one move together. -/
theorem outlines_of_forall₂ {k : Nat} {nodes again : List Node}
    (h : List.Forall₂ (fun node other => node.outline = shifts k other.outline) nodes again) :
    outlines nodes = shifts k (outlines again) := by
  induction h with
  | nil => rfl
  | cons hnode _ ih => rw [outlines, outlines, shifts_append, hnode, ih]

end Node

namespace Nested

variable {source part : Text} {events : List Event} {nodes : List Node} {k : Nat}

theorem outline_enclose (embeds : Embeds source k part) {opener closer : PlacedTag}
    {children again : List Node} (ho : opener.span.stop ≤ part.size)
    (hc : closer.span.start ≤ part.size)
    (h : Node.outlines children = Node.shifts k (Node.outlines again)) :
    ((opener.shift k).enclose source (closer.shift k) children).outline =
      Node.shifts k (opener.enclose part closer again).outline := by
  have hraw : source.slice (opener.shift k).span.stop (closer.shift k).span.start =
      part.slice opener.span.stop closer.span.start := embeds _ _ ho hc
  simp only [PlacedTag.enclose, Node.outline, Node.shifts, Node.shift, h, hraw]
  rfl

/-- A tag inside of a part, and the same tag in the whole. -/
def Moved (part : Text) (k : Nat) (mark again : Mark) : Prop :=
  mark.1 = again.1.shift k ∧ again.1.span.start ≤ part.size ∧ again.1.span.stop ≤ part.size

/-- Moved tags draw nodes with moved outlines. -/
theorem draws_moved (embeds : Embeds source k part) : Draws source part (Moved part k)
    fun node other => node.outline = Node.shifts k other.outline where
  sigil := by
    rintro ⟨_, _⟩ ⟨placed, _⟩ ⟨rfl, -⟩
    rfl
  name := by
    rintro ⟨_, _⟩ ⟨_, _⟩ ⟨opener, _⟩ ⟨closer, _⟩ ⟨rfl, -⟩ ⟨rfl, -⟩ h
    exact h
  single := by
    rintro ⟨_, i⟩ ⟨placed, j⟩ ⟨rfl, -⟩
    unfold PlacedTag.single PlacedTag.shift
    cases placed.tag.sigil
    all_goals first | exact .nil | exact .cons rfl .nil
  block := by
    rintro ⟨_, _⟩ ⟨_, _⟩ ⟨opener, _⟩ ⟨closer, _⟩ children again ⟨rfl, -, ho⟩ ⟨rfl, hc, -⟩ h
    have hout := Node.outlines_of_forall₂ h
    rw [Node.outlines_withoutTexts, Node.outlines_withoutTexts] at hout
    exact outline_enclose embeds ho hc hout

/-- The outline of a tree depends on the tags only, and moves with them. -/
theorem redraw (embeds : Embeds source k part) (h : Nested source events nodes)
    {moved : List Event} (ht : Event.tags events = (Event.tags moved).map (PlacedTag.shift k))
    (hin : ∀ placed ∈ Event.tags moved,
      placed.span.start ≤ part.size ∧ placed.span.stop ≤ part.size) :
    ∃ again, Nested part moved again ∧
      Node.outlines nodes = Node.shifts k (Node.outlines again) := by
  have hmarks : List.Forall₂ (Moved part k) (Event.marks events) (Event.marks moved) := by
    rw [Event.tags_eq_map_marks, Event.tags_eq_map_marks, List.map_map, eq_comm,
      ← List.forall₂_eq_eq_eq, List.forall₂_map_left_iff, List.forall₂_map_right_iff] at ht
    rw [Event.tags_eq_map_marks, List.forall_mem_map] at hin
    have hboth := (List.forall₂_and_left _ _).2 ⟨hin, ht⟩
    exact (hboth.imp fun again mark h => (⟨h.2.symm, h.1⟩ : flip (Moved part k) again mark)).flip
  obtain ⟨again, hn, ho⟩ := h.redraw_along (draws_moved embeds) hmarks
  have hout := Node.outlines_of_forall₂ ho
  rw [Node.outlines_withoutTexts, Node.outlines_withoutTexts] at hout
  exact ⟨again, hn, hout⟩

end Nested

namespace Template

/-- Compiled under the pair that a section remembers, its source gives the nodes of the section, but
for texts and indentations, as far back as that source starts in the whole. -/
theorem compile_raw {source : Text} {tags : Tags} {nodes : List Node}
    (h : compile source tags = .ok nodes) {path : KeyPath} {inverted : Bool}
    {children : List Node} {raw : Thunk Text} {pair : Tags} {span : Span}
    (hw : Within (.block path inverted children raw pair span) nodes) :
    ∃ opener ∈ placed source tags, ∃ closer ∈ placed source tags,
      span = ⟨opener.span.start, closer.span.stop⟩ ∧
      raw.get = source.slice opener.span.stop closer.span.start ∧
      ∃ again, compile raw.get pair = .ok again ∧
        Node.outlines children = Node.shifts opener.span.stop (Node.outlines again) := by
  obtain ⟨pieces, hr, hn⟩ := compile_eq_ok_iff_nested.1 h
  obtain ⟨opener, inner, closer, ⟨front, i, j, back, hb⟩, opens, hinner, he⟩ :=
    hn.block_of_within hw
  simp only [PlacedTag.enclose, Node.block.injEq] at he
  obtain ⟨-, -, -, rfl, rfl, rfl⟩ := he
  have htags : Piece.tags pieces = Event.tags front ++ opener ::
      (Event.tags inner ++ closer :: Event.tags back) := by
    rw [← Piece.tags_events, hb]
    simp
  have hplaced : placed source tags = Piece.tags pieces := by
    rw [placed, Tokens.read_of_reading hr]
  refine ⟨opener, by simp [hplaced, htags], closer, by simp [hplaced, htags], rfl, rfl, ?_⟩
  obtain ⟨before, part, after, moved, rfl, hstop, hstart, hm, hmoved⟩ := hr.between htags opens
  have hraw : Text.slice (before ++ (part ++ after)) opener.span.stop closer.span.start = part := by
    rw [hstop, hstart]
    exact Text.slice_append before part after
  have hembeds : Nested.Embeds (before ++ (part ++ after)) before.size part :=
    fun _ _ ha hb => Text.slice_part before part after ha hb
  have hin := hm.laid.inside_events
  obtain ⟨again, hagain, hout⟩ := hinner.redraw hembeds
    (show _ = (Event.tags (Piece.events moved)).map _ by rw [hmoved, Piece.tags_events]) hin
  refine ⟨again, compile_eq_ok_iff_nested.2 ⟨moved, ?_, ?_⟩, hstop ▸ hout⟩
  · simpa only [Thunk.get, hraw] using hm
  · simpa only [Thunk.get, hraw] using hagain

/-- A section that opens on a line of its own and changes the pair. -/
def oneSection : Text :=
  "{{#s}}\n{{>p}}{{=<% %>=}}<%x%><%/s%>".toList

def oneSectionRaw : Text :=
  "\n{{>p}}{{=<% %>=}}<%x%>".toList

def oneSectionNodes : List Node :=
  [.inclusion ['p'] (.inline []) ⟨7, 13⟩, .interpolation (.parse ['x']) true ⟨24, 29⟩]

theorem compile_oneSection : compile oneSection default = .ok [.block (.parse ['s']) false
    oneSectionNodes (.mk fun _ => oneSectionRaw) default ⟨0, 35⟩] := by
  cbv

/-- The line feed after the opening tag, which goes with it, is a text on its own. -/
theorem compile_raw_oneSection : ∃ k again, compile oneSectionRaw default = .ok again ∧
    Node.outlines oneSectionNodes = Node.shifts k (Node.outlines again) := by
  obtain ⟨opener, -, closer, -, -, -, again, hagain, hout⟩ :=
    compile_raw compile_oneSection (.here (List.mem_singleton_self _))
  exact ⟨opener.span.stop, again, hagain, hout⟩

end Template
end Stencil
