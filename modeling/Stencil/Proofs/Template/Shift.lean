import Stencil.Proofs.Template.Cut
import Stencil.Proofs.Template.Layout

/-!
# Moving a source

What a source is read and built into stays the same when the source becomes a part of a longer one,
but for the offsets.
-/

namespace Stencil

namespace Text

theorem takeBytes_append_of_le {n : Nat} {s : Text} (h : n ≤ s.size) (t : Text) :
    takeBytes n (s ++ t) = takeBytes n s := by
  induction s generalizing n with
  | nil =>
    obtain rfl : n = 0 := by simpa using h
    simp
  | cons c s ih =>
    rw [size_cons] at h
    simp only [List.cons_append, takeBytes]
    split
    · rw [ih (by omega)]
    · rfl

theorem dropBytes_append_of_le {n : Nat} {s : Text} (h : n ≤ s.size) (t : Text) :
    dropBytes n (s ++ t) = dropBytes n s ++ t ∧ s.size ≤ n + (dropBytes n s).size := by
  induction s generalizing n with
  | nil =>
    obtain rfl : n = 0 := by simpa using h
    simp
  | cons c s ih =>
    rw [size_cons] at h ⊢
    simp only [List.cons_append, dropBytes]
    split
    · obtain ⟨he, hs⟩ := @ih (n - c.utf8Size) (by omega)
      refine ⟨he, ?_⟩
      omega
    · refine ⟨rfl, ?_⟩
      rw [size_cons]
      omega

/-- The slices of a part are slices of the whole, further on. -/
theorem slice_part (front part back : Text) {a b : Nat} (ha : a ≤ part.size) (hb : b ≤ part.size) :
    slice (front ++ (part ++ back)) (a + front.size) (b + front.size) = slice part a b := by
  obtain ⟨he, hs⟩ := dropBytes_append_of_le ha back
  rw [slice, Nat.add_comm a, dropBytes_size_add, he, slice, takeBytes_append_of_le (by omega)]
  congr 1
  omega

end Text

mutual
/-- The same node further on in a source. -/
def Node.shift (k : Nat) : Node → Node
  | .interpolation path escape span => .interpolation path escape (span.shift k)
  | .inclusion name indent span => .inclusion name indent (span.shift k)
  | .block path inverted children raw tags span =>
    .block path inverted (shifts k children) raw tags (span.shift k)
  | node => node

def Node.shifts (k : Nat) : List Node → List Node
  | [] => []
  | node :: nodes => node.shift k :: shifts k nodes
end

namespace Node

def isText : Node → Bool
  | .text _ => true
  | _ => false

theorem shifts_eq_map (k : Nat) (nodes : List Node) : shifts k nodes = nodes.map (shift k) := by
  induction nodes with
  | nil => rfl
  | cons node nodes ih => rw [shifts, ih, List.map_cons]

theorem shifts_append (k : Nat) (front back : List Node) :
    shifts k (front ++ back) = shifts k front ++ shifts k back := by
  induction front with
  | nil => rfl
  | cons node front ih => simp [shifts, ih]

end Node

namespace Event

def placed? : Event → Option PlacedTag
  | .text _ => none
  | .tag placed _ => some placed

/-- The tags among events. -/
def tags (events : List Event) : List PlacedTag :=
  events.filterMap placed?

@[simp] theorem tags_append (front back : List Event) :
    tags (front ++ back) = tags front ++ tags back :=
  List.filterMap_append

@[simp] theorem tags_nil : tags [] = [] := rfl

@[simp] theorem tags_text (t : Text) (events : List Event) :
    tags (.text t :: events) = tags events := rfl

@[simp] theorem tags_tag (placed : PlacedTag) (indent : Indent) (events : List Event) :
    tags (.tag placed indent :: events) = placed :: tags events := rfl

end Event

/-- The lines pass on every tag. -/
theorem Line.tags_inlineEvents (first : Indent) (items : List Item) :
    Event.tags (inlineEvents first items) = Piece.tags (items.map .item) := by
  induction items generalizing first with
  | nil => rfl
  | cons item items ih => cases item <;> simp [inlineEvents, ih]

theorem Line.tags_events (line : Line) :
    Event.tags line.events = Piece.tags (line.items.map .item) := by
  cases hl : lone? line.items with
  | some placed => rw [events, hl, tags_of_lone hl]; rfl
  | none =>
    rw [events, hl, Event.tags_append, tags_inlineEvents]
    split <;> simp

theorem Piece.tags_events (pieces : List Piece) : Event.tags (events pieces) = tags pieces := by
  have hlines : ∀ lines : List Line,
      Event.tags (lines.flatMap Line.events) = tags (lines.flatMap Line.pieces) := by
    intro lines
    induction lines with
    | nil => rfl
    | cons line lines ih => simp [Line.tags_events, Line.tags_pieces, ih]
  rw [events, Event.tags_append, hlines, Line.tags_events, ← tags_append,
    Line.flatMap_pieces_split]

namespace Nested

/-- The slices that a part of a source has are slices of the source, further on. -/
def Embeds (source : Text) (k : Nat) (part : Text) : Prop :=
  ∀ a b, a ≤ part.size → b ≤ part.size → source.slice (a + k) (b + k) = part.slice a b

end Nested

def Item.shift (k : Nat) : Item → Item
  | .text t => .text t
  | .tag placed => .tag (placed.shift k)

def Line.shift (k : Nat) (line : Line) : Line :=
  { line with items := line.items.map (Item.shift k) }

def Event.shift (k : Nat) : Event → Event
  | .text t => .text t
  | .tag placed indent => .tag (placed.shift k) indent

section

variable (k : Nat)

theorem Piece.shift_item (item : Item) : Piece.shift k (.item item) = .item (item.shift k) := by
  cases item <;> rfl

namespace Line

theorem split_map_shift (pieces : List Piece) :
    split (pieces.map (Piece.shift k)) =
      ((split pieces).1.map (Line.shift k), (split pieces).2.map (Item.shift k)) := by
  induction pieces with
  | nil => rfl
  | cons piece pieces ih =>
    rw [List.map_cons]
    cases piece with
    | lineEnd terminator =>
      simp only [Piece.shift, split, ih]
      rfl
    | item item =>
      rw [Piece.shift_item]
      rcases hs : split pieces with ⟨_ | ⟨line, lines⟩, last⟩
      · rw [hs] at ih
        simp [split, hs, ih]
      · rw [hs] at ih
        simp [split, hs, ih, Line.shift]

theorem placed?_shift (item : Item) : placed? (item.shift k) = (placed? item).map (PlacedTag.shift k) := by
  cases item <;> rfl

theorem lone?_map_shift (items : List Item) :
    lone? (items.map (Item.shift k)) = (lone? items).map (PlacedTag.shift k) := by
  have htags : (items.map (Item.shift k)).filterMap placed? =
      (items.filterMap placed?).map (PlacedTag.shift k) := by
    rw [List.filterMap_map, List.map_filterMap]
    exact congrArg (List.filterMap · items) (funext (placed?_shift k))
  have hall : (items.map (Item.shift k)).all admitsLone = items.all admitsLone := by
    rw [List.all_map]
    refine congrArg items.all (funext fun item => ?_)
    cases item <;> rfl
  rw [lone?, lone?, htags, hall]
  rcases items.filterMap placed? with _ | ⟨placed, _ | ⟨other, others⟩⟩
  · rfl
  · simp only [List.map_cons, List.map_nil]
    split <;> rfl
  · rfl

theorem preceding_map_shift (items : List Item) :
    preceding (items.map (Item.shift k)) = preceding items := by
  induction items with
  | nil => rfl
  | cons item items ih =>
    cases item with
    | text t => simp [Item.shift, preceding, ih]
    | tag placed => rfl

theorem inlineEvents_map_shift (first : Indent) (items : List Item) :
    inlineEvents first (items.map (Item.shift k)) =
      (inlineEvents first items).map (Event.shift k) := by
  induction items generalizing first with
  | nil => rfl
  | cons item items ih => cases item <;> simp [Item.shift, inlineEvents, Event.shift, ih]

theorem events_shift (line : Line) : (line.shift k).events = line.events.map (Event.shift k) := by
  simp only [events, Line.shift, lone?_map_shift, preceding_map_shift, inlineEvents_map_shift]
  cases lone? line.items with
  | some placed => rfl
  | none =>
    by_cases ht : line.terminator.isEmpty = true <;> simp [ht, Event.shift]

end Line

/-- Further on in a source the lines give the same events. -/
theorem Piece.events_map_shift (pieces : List Piece) :
    events (pieces.map (Piece.shift k)) = (events pieces).map (Event.shift k) := by
  have hlast : Line.events ⟨(Line.split pieces).2.map (Item.shift k), []⟩ =
      (Line.events ⟨(Line.split pieces).2, []⟩).map (Event.shift k) :=
    Line.events_shift k ⟨(Line.split pieces).2, []⟩
  rw [events, Line.split_map_shift, hlast, events, List.map_append, List.map_flatMap,
    List.flatMap_map]
  simp only [Line.events_shift]

end

/-- What is read is read alike further on. -/
theorem Reading.shift {tags : Tags} {n : Nat} {t : Text} {pieces : List Piece} (k : Nat)
    (h : Reading tags n t pieces) : Reading tags (n + k) t (pieces.map (Piece.shift k)) := by
  induction h with
  | text valid no_opening =>
    rw [Piece.map_shift_ofText]
    exact .text valid no_opening
  | @tag tags next start rest before inside found pieces valid opens reads changes after ih =>
    have hstop : start + before.size + tags.opening.size + found.body.size + found.closing.size + k =
        start + k + before.size + tags.opening.size + found.body.size + found.closing.size := by
      omega
    have hspan : (Span.mk (start + before.size) (start + before.size + tags.opening.size +
        found.body.size + found.closing.size)).shift k = ⟨start + k + before.size,
          start + k + before.size + tags.opening.size + found.body.size + found.closing.size⟩ := by
      rw [Span.shift, hstop, Nat.add_right_comm]
    rw [hstop] at ih
    rw [List.map_append, Piece.map_shift_ofText, List.map_cons, Piece.shift, PlacedTag.shift, hspan]
    exact .tag valid opens reads changes ih

/-- The tags of events stand inside the text that they are read from. -/
theorem Laid.inside_events {t : Text} {pieces : List Piece} (h : Laid 0 t pieces) :
    ∀ placed ∈ Event.tags (Piece.events pieces),
      placed.span.start ≤ t.size ∧ placed.span.stop ≤ t.size := by
  intro placed hp
  rw [Piece.tags_events] at hp
  have := h.span_of_mem hp
  omega

mutual
theorem Node.shift_zero : (node : Node) → node.shift 0 = node
  | .text _ | .comment _ | .interpolation .. | .inclusion .. => rfl
  | .block path inverted children raw tags span => by
    rw [Node.shift, Node.shifts_zero children]
    rfl

theorem Node.shifts_zero : (nodes : List Node) → Node.shifts 0 nodes = nodes
  | [] => rfl
  | node :: nodes => by rw [Node.shifts, Node.shift_zero node, Node.shifts_zero nodes]
end

theorem Event.map_shift_zero (events : List Event) : events.map (Event.shift 0) = events := by
  have hid : Event.shift 0 = id := by
    funext e
    cases e <;> rfl
  rw [hid, List.map_id]

namespace Nested

variable {source part : Text} {events : List Event} {nodes : List Node} {k : Nat}

theorem shifts_single (placed : PlacedTag) (indent : Indent) :
    (placed.shift k).single indent = Node.shifts k (placed.single indent) := by
  unfold PlacedTag.single PlacedTag.shift
  cases placed.tag.sigil <;> rfl

theorem shift_enclose (embeds : Embeds source k part) {opener closer : PlacedTag}
    (ho : opener.span.stop ≤ part.size) (hc : closer.span.start ≤ part.size)
    (children : List Node) :
    (opener.shift k).enclose source (closer.shift k) (Node.shifts k children) =
      (opener.enclose part closer children).shift k := by
  have hraw : source.slice (opener.shift k).span.stop (closer.shift k).span.start =
      part.slice opener.span.stop closer.span.start := embeds _ _ ho hc
  simp only [PlacedTag.enclose, Node.shift, hraw]
  rfl

theorem endsInText_of_shifts (h : EndsInText (Node.shifts k nodes)) : EndsInText nodes := by
  obtain ⟨front, t, h⟩ := h
  rw [Node.shifts_eq_map] at h
  obtain ⟨before, last, rfl, -, hlast⟩ := List.map_eq_append_iff.1 h
  obtain ⟨node, rest, rfl, hnode, hrest⟩ := List.map_eq_cons_iff.1 hlast
  obtain rfl : rest = [] := by simpa using hrest
  cases node <;> simp_all [Node.shift, EndsInText]

/-- The tree of a part is a tree of the whole, further on. -/
theorem shift (embeds : Embeds source k part) (h : Nested part events nodes)
    (inside : ∀ placed ∈ Event.tags events,
      placed.span.start ≤ part.size ∧ placed.span.stop ≤ part.size) :
    Nested source (events.map (Event.shift k)) (Node.shifts k nodes) := by
  induction h with
  | nil => exact .nil
  | text t fresh _ ih =>
    rw [List.map_append, Node.shifts_append]
    exact .text t (fun h => fresh (endsInText_of_shifts h)) (ih (by simpa using inside))
  | more u t _ ih =>
    have hfront := ih (by simpa using inside)
    rw [Node.shifts_append] at hfront
    rw [List.map_append, Node.shifts_append]
    exact .more u t hfront
  | single indent single _ ih =>
    rw [List.map_append, Node.shifts_append, ← shifts_single]
    exact .single indent single (ih fun q hq => inside q (by simp [hq]))
  | @block events inner nodes children opener closer i j opens closes named _ _ ihf ihw =>
    have hfront := ihf fun q hq => inside q (by simp [hq])
    have hwithin := ihw fun q hq => inside q (by simp [hq])
    have henclose := shift_enclose embeds (inside opener (by simp)).2 (inside closer (by simp)).1
      children
    have h : Nested source (events.map (Event.shift k) ++ .tag (opener.shift k) i ::
        (inner.map (Event.shift k) ++ [.tag (closer.shift k) j])) (Node.shifts k nodes ++
          [(opener.shift k).enclose source (closer.shift k) (Node.shifts k children)]) :=
      .block i j opens closes named hfront hwithin
    rw [henclose] at h
    simpa [Node.shifts_append, Event.shift, Node.shifts] using h

end Nested
end Stencil
