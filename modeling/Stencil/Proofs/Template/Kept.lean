import Stencil.Proofs.Template.Nesting
import Stencil.Proofs.Template.Standalone

/-!
# What is kept of a source

The texts of a tree, in the order in which they stand there, are the source without its tags and
without the lines of those that stand alone.
-/

namespace Stencil

/-- The byte offset is in one of the spans. -/
def Covers (spans : List Span) (i : Nat) : Prop :=
  ∃ span ∈ spans, span.start ≤ i ∧ i < span.stop

instance (spans : List Span) (i : Nat) : Decidable (Covers spans i) :=
  inferInstanceAs (Decidable (∃ span ∈ spans, _))

/-- A text that starts at a byte offset, without the characters in the spans. -/
def Text.without (spans : List Span) : Nat → Text → Text
  | _, [] => []
  | n, c :: t =>
    if Covers spans n then without spans (n + c.utf8Size) t
    else c :: without spans (n + c.utf8Size) t

mutual
/-- The text of a node and of all nodes in it. -/
def Node.literal : Node → Text
  | .text t => t
  | .block _ _ children _ _ _ => literals children
  | _ => []

def Node.literals : List Node → Text
  | [] => []
  | node :: nodes => node.literal ++ literals nodes
end

namespace Text

variable {n : Nat} {s t : Text} {spans front back : List Span}

theorem without_append (spans : List Span) (n : Nat) (s t : Text) :
    without spans n (s ++ t) = without spans n s ++ without spans (n + s.size) t := by
  induction s generalizing n with
  | nil => rfl
  | cons c s ih =>
    have hsize : n + c.utf8Size + size s = n + size (c :: s) := by
      rw [size_cons, Nat.add_assoc]
    simp only [List.cons_append, without, ih, hsize]
    split <;> simp

/-- Only the offsets inside the text matter. -/
theorem without_congr (h : ∀ i, n ≤ i → i < n + t.size → (Covers front i ↔ Covers back i)) :
    without front n t = without back n t := by
  induction t generalizing n with
  | nil => rfl
  | cons c t ih =>
    have hpos := c.utf8Size_pos
    have hrest : without front (n + c.utf8Size) t = without back (n + c.utf8Size) t := by
      refine ih fun i hn hi => h i (by omega) ?_
      rw [size_cons]
      omega
    have hhead := h n (Nat.le_refl n) (by rw [size_cons]; omega)
    simp only [without, hrest, hhead]

@[simp] theorem without_nil (n : Nat) (t : Text) : without [] n t = t := by
  induction t generalizing n with
  | nil => rfl
  | cons c t ih => simp [without, Covers, ih]

theorem without_of_covers (h : ∀ i, n ≤ i → i < n + t.size → Covers spans i) :
    without spans n t = [] := by
  induction t generalizing n with
  | nil => rfl
  | cons c t ih =>
    have hpos := c.utf8Size_pos
    rw [without, if_pos (h n (Nat.le_refl n) (by rw [size_cons]; omega))]
    refine ih fun i hn hi => h i (by omega) ?_
    rw [size_cons]
    omega

/-- Spans that do not reach over a cut can be dealt with on each side. -/
theorem without_append_of_bounds (hf : ∀ span ∈ front, span.stop ≤ n + s.size)
    (hb : ∀ span ∈ back, n + s.size ≤ span.start) :
    without (front ++ back) n (s ++ t) = without front n s ++ without back (n + s.size) t := by
  rw [without_append]
  congr 1
  · refine without_congr fun i hn hi => ?_
    constructor
    · rintro ⟨span, hs, h⟩
      rcases List.mem_append.1 hs with hs | hs
      · exact ⟨span, hs, h⟩
      · have := hb span hs
        omega
    · rintro ⟨span, hs, h⟩
      exact ⟨span, List.mem_append_left _ hs, h⟩
  · refine without_congr fun i hn hi => ?_
    constructor
    · rintro ⟨span, hs, h⟩
      rcases List.mem_append.1 hs with hs | hs
      · have := hf span hs
        omega
      · exact ⟨span, hs, h⟩
    · rintro ⟨span, hs, h⟩
      exact ⟨span, List.mem_append_right _ hs, h⟩

end Text

/-- Without the tags, what is outside of them stays. -/
theorem Laid.without_spans {n : Nat} {t : Text} {pieces : List Piece} (h : Laid n t pieces) :
    t.without ((Piece.tags pieces).map PlacedTag.span) n = pieces.flatMap Piece.outside := by
  have step : ∀ {n : Nat} {s t : Text} {front pieces : List Piece},
      Laid (n + s.size) t pieces → (∀ placed ∈ Piece.tags front, placed.span.stop ≤ n + s.size) →
      (s ++ t).without ((Piece.tags (front ++ pieces)).map PlacedTag.span) n =
        s.without ((Piece.tags front).map PlacedTag.span) n ++
          t.without ((Piece.tags pieces).map PlacedTag.span) (n + s.size) := by
    intro n s t front pieces h hf
    rw [Piece.tags_append, List.map_append]
    refine Text.without_append_of_bounds ?_ ?_
    · simpa using hf
    · simp only [List.mem_map, forall_exists_index, and_imp, forall_apply_eq_imp_iff₂]
      exact fun placed hp => (h.span_of_mem hp).1
  induction h with
  | nil => rfl
  | @text n t rest pieces ne_nil no_feed whole after ih =>
    rw [← List.singleton_append, step after (by simp), ih]
    simp [Piece.outside]
  | @lineEnd n t rest pieces terminator after ih =>
    rw [← List.singleton_append, step after (by simp), ih]
    simp [Piece.outside]
  | @tag n raw rest placed pieces solid span after ih =>
    rw [← List.singleton_append, step after (by simp [span]), ih, Text.without_of_covers]
    · simp [Piece.outside]
    · intro i hn hi
      exact ⟨placed.span, by simp, by rw [span]; exact ⟨hn, hi⟩⟩

/-- The text that an event adds. -/
def Event.literal : Event → Text
  | .text t => t
  | .tag _ _ => []

namespace Line

variable {line : Line} {front t rest : Text}

theorem literal_inlineEvents (indent : Indent) (items : List Item) :
    (inlineEvents indent items).flatMap Event.literal = outside items := by
  induction items generalizing indent with
  | nil => rfl
  | cons item items ih =>
    cases item with
    | text t => rw [inlineEvents, List.flatMap_cons, ih, outside_text, Event.literal]
    | tag placed => rw [inlineEvents, List.flatMap_cons, ih]; rfl

theorem exists_split_of_mem {items : List Item} {placed : PlacedTag}
    (h : placed ∈ Piece.tags (items.map .item)) :
    ∃ before after, items = before ++ .tag placed :: after := by
  obtain ⟨piece, hm, hp⟩ := List.mem_filterMap.1 h
  obtain ⟨item, hi, rfl⟩ := List.mem_map.1 hm
  cases item with
  | text t => cases hp
  | tag found =>
    cases hp
    exact List.append_of_mem hi

theorem tags_items (items : List Item) :
    Piece.tags (items.map .item) = items.filterMap placed? := by
  rw [Piece.tags, List.filterMap_map]
  rfl

theorem tags_ending (terminator : Text) : Piece.tags (ending terminator) = [] := by
  unfold ending
  split <;> rfl

theorem tags_of_lone {items : List Item} {placed : PlacedTag} (h : lone? items = some placed) :
    Piece.tags (items.map .item) = [placed] := by
  rw [tags_items]
  unfold lone? at h
  split at h
  · simp_all
  · cases h

/-- A tag takes nothing from other lines. -/
theorem Stands.taken_bounds (h : line.Stands front t rest) {placed : PlacedTag}
    (hp : placed ∈ Piece.tags (line.items.map .item)) :
    front.size ≤ (placed.taken (front ++ (t ++ rest))).start ∧
      (placed.taken (front ++ (t ++ rest))).stop ≤ front.size + t.size := by
  obtain ⟨before, after, hi⟩ := exists_split_of_mem hp
  cases hl : lone? line.items with
  | none =>
    have := h.laid.span_of_mem (show placed ∈ _ by simpa using .inl hp)
    rw [h.of_none hi hl]
    omega
  | some found =>
    obtain rfl : placed = found := by simpa [tags_of_lone hl] using hp
    rw [(h.of_lone hi hl).2]
    exact ⟨Nat.le_refl _, Nat.le_refl _⟩

/-- A line gives the tree what its tags do not take. -/
theorem Stands.without_taken (h : line.Stands front t rest) :
    t.without ((Piece.tags (line.items.map .item)).map
      (PlacedTag.taken (front ++ (t ++ rest)))) front.size =
        line.events.flatMap Event.literal := by
  cases hl : lone? line.items with
  | none =>
    have hspans : (Piece.tags (line.items.map .item)).map
        (PlacedTag.taken (front ++ (t ++ rest))) =
          (Piece.tags (line.items.map .item ++ ending line.terminator)).map PlacedTag.span := by
      rw [Piece.tags_append, tags_ending, List.append_nil]
      refine List.map_congr_left fun placed hp => ?_
      obtain ⟨before, after, hi⟩ := exists_split_of_mem hp
      exact h.of_none hi hl
    rw [hspans, h.laid.without_spans, events, hl, List.flatMap_append, List.flatMap_append,
      literal_inlineEvents]
    unfold ending
    split <;> simp [outside, Piece.outside, Event.literal]
  | some placed =>
    have htags := tags_of_lone hl
    obtain ⟨before, after, hi⟩ := exists_split_of_mem (htags ▸ List.mem_singleton_self placed)
    rw [htags, List.map_singleton, (h.of_lone hi hl).2, events, hl]
    exact Text.without_of_covers fun i hn hi => ⟨_, List.mem_singleton_self _, hn, hi⟩

end Line

theorem Line.tags_pieces (line : Line) :
    Piece.tags line.pieces = Piece.tags (line.items.map .item) := by
  simp [Line.pieces]

/-- No tag takes anything before the line where the text starts. -/
theorem Laid.le_taken {front t : Text} {lines : List Line} {last : List Item}
    (starts : StartsLine front)
    (h : Laid front.size t (lines.flatMap Line.pieces ++ last.map .item)) {placed : PlacedTag}
    (hp : placed ∈ Piece.tags (lines.flatMap Line.pieces ++ last.map .item)) :
    front.size ≤ (placed.taken (front ++ t)).start := by
  induction lines generalizing front t with
  | nil =>
    have := (Line.stands_of_last starts h).taken_bounds hp
    simpa using this.1
  | cons line lines ih =>
    rw [List.flatMap_cons, List.append_assoc] at h hp
    obtain ⟨u, rest, rfl, -, hstands, hstarts, hrest⟩ := Line.stands_of_laid starts h
    rw [Piece.tags_append, Line.tags_pieces, List.mem_append] at hp
    rcases hp with hp | hp
    · exact (hstands.taken_bounds hp).1
    · have := ih hstarts hrest hp
      rw [Text.size_append, List.append_assoc] at this
      omega

/-- The lines give the tree what their tags do not take. -/
theorem Laid.without_taken {front t : Text} {lines : List Line} {last : List Item}
    (starts : StartsLine front)
    (h : Laid front.size t (lines.flatMap Line.pieces ++ last.map .item)) :
    t.without ((Piece.tags (lines.flatMap Line.pieces ++ last.map .item)).map
      (PlacedTag.taken (front ++ t))) front.size =
        (lines.flatMap Line.events ++ Line.events ⟨last, []⟩).flatMap Event.literal := by
  induction lines generalizing front t with
  | nil => simpa using (Line.stands_of_last starts h).without_taken
  | cons line lines ih =>
    rw [List.flatMap_cons, List.append_assoc] at h
    obtain ⟨u, rest, rfl, -, hstands, hstarts, hrest⟩ := Line.stands_of_laid starts h
    rw [List.flatMap_cons, List.append_assoc, Piece.tags_append, Line.tags_pieces, List.map_append,
      Text.without_append_of_bounds, hstands.without_taken]
    · have hih := ih hstarts hrest
      rw [Text.size_append, List.append_assoc] at hih
      rw [hih]
      simp
    · simp only [List.mem_map, forall_exists_index, and_imp, forall_apply_eq_imp_iff₂]
      exact fun placed hp => (hstands.taken_bounds hp).2
    · simp only [List.mem_map, forall_exists_index, and_imp, forall_apply_eq_imp_iff₂]
      intro placed hp
      have := hrest.le_taken hstarts hp
      rwa [Text.size_append, List.append_assoc] at this

/-- What is read from a source gives the tree what the tags do not take. -/
theorem Reading.without_taken {tags : Tags} {source : Text} {pieces : List Piece}
    (h : Reading tags 0 source pieces) :
    source.without ((Piece.tags pieces).map (PlacedTag.taken source)) 0 =
      (Piece.events pieces).flatMap Event.literal := by
  have hlaid := h.laid
  rw [← Line.flatMap_pieces_split pieces] at hlaid
  have := Laid.without_taken .nil hlaid
  rwa [Line.flatMap_pieces_split, List.nil_append] at this

namespace Node

theorem literals_append (front back : List Node) :
    literals (front ++ back) = literals front ++ literals back := by
  induction front with
  | nil => rfl
  | cons node front ih => simp [literals, ih]

theorem literals_single (placed : PlacedTag) (indent : Indent) :
    literals (placed.single indent) = [] := by
  unfold PlacedTag.single
  split <;> rfl

end Node

/-- Nesting keeps the texts and their order. -/
theorem Nested.literals_eq {source : Text} {events : List Event} {nodes : List Node}
    (h : Nested source events nodes) : Node.literals nodes = events.flatMap Event.literal := by
  induction h with
  | nil => rfl
  | text t fresh front ih =>
    rw [Node.literals_append, ih]
    simp [Node.literals, Node.literal, Event.literal]
  | more u t front ih =>
    rw [Node.literals_append] at ih ⊢
    simp only [Node.literals, Node.literal, List.append_nil] at ih ⊢
    rw [← List.append_assoc, ih]
    simp [Event.literal]
  | single indent single front ih =>
    rw [Node.literals_append, Node.literals_single, ih]
    simp [Event.literal]
  | block i j opens closes named front within ihf ihw =>
    rw [Node.literals_append, ihf]
    simp [Node.literals, Node.literal, PlacedTag.enclose, Event.literal, ihw]

end Stencil
