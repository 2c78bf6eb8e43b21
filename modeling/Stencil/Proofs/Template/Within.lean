import Stencil.Proofs.Template.Nesting

/-!
# Nodes at any depth

What holds of nested events holds of the events of each section in them, however deep it lies. So
what is to be shown of a tree need be shown of nestings only.
-/

namespace Stencil

/-- A node is among nodes or in a section among them. -/
inductive Within (node : Node) : List Node → Prop
  | here {nodes : List Node} (h : node ∈ nodes) : Within node nodes
  | inside {nodes children : List Node} {path : KeyPath} {inverted : Bool} {raw : Thunk Text}
    {tags : Tags} {span : Span} (h : .block path inverted children raw tags span ∈ nodes)
    (within : Within node children) : Within node nodes

/-- The nodes of the whole tree, or those of one of its sections. -/
def Level (tree level : List Node) : Prop :=
  level = tree ∨ ∃ path inverted raw tags span,
    Within (.block path inverted level raw tags span) tree

namespace Within

variable {node : Node} {front back : List Node}

theorem append (h : Within node (front ++ back)) : Within node front ∨ Within node back := by
  cases h with
  | here h =>
    rcases List.mem_append.1 h with h | h
    · exact .inl (.here h)
    · exact .inr (.here h)
  | inside h within =>
    rcases List.mem_append.1 h with h | h
    · exact .inl (.inside h within)
    · exact .inr (.inside h within)

theorem of_subset {nodes others : List Node} (h : Within node nodes) (hs : nodes ⊆ others) :
    Within node others := by
  cases h with
  | here h => exact .here (hs h)
  | inside h within => exact .inside (hs h) within

theorem append_right (h : Within node front) (back : List Node) : Within node (front ++ back) :=
  h.of_subset (List.subset_append_left front back)

theorem text {t : Text} (h : Within node [.text t]) : node = .text t := by
  cases h with
  | here h => simpa using h
  | inside h within => simp at h

/-- A single tag holds no nodes inside. -/
theorem single {placed : PlacedTag} {indent : Indent} (h : Within node (placed.single indent)) :
    node ∈ placed.single indent := by
  cases h with
  | here h => exact h
  | inside h within =>
    revert h
    unfold PlacedTag.single
    split <;> simp

theorem enclose {source : Text} {opener closer : PlacedTag} {children : List Node}
    (h : Within node [opener.enclose source closer children]) :
    node = opener.enclose source closer children ∨ Within node children := by
  cases h with
  | here h => exact .inl (by simpa using h)
  | inside h within =>
    simp only [List.mem_singleton, PlacedTag.enclose, Node.block.injEq] at h
    obtain ⟨-, -, rfl, -⟩ := h
    exact .inr within

end Within

/-- Among events there are these, between these two tags. -/
def Bracketed (events : List Event) (opener : PlacedTag) (inner : List Event)
    (closer : PlacedTag) : Prop :=
  ∃ front i j back, events = front ++ .tag opener i :: (inner ++ .tag closer j :: back)

theorem Bracketed.append {events inner : List Event} {opener closer : PlacedTag}
    (h : Bracketed events opener inner closer) (front back : List Event) :
    Bracketed (front ++ (events ++ back)) opener inner closer := by
  obtain ⟨before, i, j, after, rfl⟩ := h
  exact ⟨front ++ before, i, j, after ++ back, by simp⟩

namespace Nested

variable {source : Text} {events : List Event} {nodes : List Node}

/-- Where a node of a tree comes from: it is a text, or the node of a single tag, or a section, which
is the nesting of the events between its two tags. -/
inductive Origin (source : Text) (events : List Event) : Node → Prop
  | text (t : Text) : Origin source events (.text t)
  | single {placed : PlacedTag} {indent : Indent} {node : Node}
    (mem : .tag placed indent ∈ events) (single : node ∈ placed.single indent) :
    Origin source events node
  | block {opener closer : PlacedTag} {inner : List Event} {children : List Node}
    (bracketed : Bracketed events opener inner closer) (opens : opener.tag.sigil.opens = true)
    (closes : closer.tag.sigil = .close) (within : Nested source inner children) :
    Origin source events (opener.enclose source closer children)

theorem Origin.append {node : Node} (h : Origin source events node) (front back : List Event) :
    Origin source (front ++ (events ++ back)) node := by
  cases h with
  | text t => exact .text t
  | single mem single => exact .single (by simp [mem]) single
  | block bracketed opens closes within =>
    exact .block (bracketed.append front back) opens closes within

theorem Origin.append_right {node : Node} (h : Origin source events node) (back : List Event) :
    Origin source (events ++ back) node :=
  h.append [] back

/-- Each node comes from the events, at whatever depth it lies. -/
theorem origin (h : Nested source events nodes) {node : Node} (hw : Within node nodes) :
    Origin source events node := by
  induction h with
  | nil =>
    cases hw with
    | here h => cases h
    | inside h within => cases h
  | text t fresh _ ih =>
    rcases hw.append with hw | hw
    · exact (ih hw).append_right _
    · exact hw.text ▸ .text t
  | more u t _ ih =>
    rcases hw.append with hw | hw
    · exact (ih (hw.append_right _)).append_right _
    · exact hw.text ▸ .text (u ++ t)
  | single indent single _ ih =>
    rcases hw.append with hw | hw
    · exact (ih hw).append_right _
    · exact .single (List.mem_append_right _ (List.mem_singleton_self _)) hw.single
  | @block events inner nodes children opener closer i j opens closes named _ within ihf ihw =>
    rcases hw.append with hw | hw
    · exact (ihf hw).append_right _
    · rcases hw.enclose with rfl | hw
      · exact .block ⟨events, i, j, [], rfl⟩ opens closes within
      · have hinner := (ihw hw).append (events ++ [.tag opener i]) [.tag closer j]
        rwa [List.append_assoc] at hinner

/-- A section is between two tags, and holds the nesting of the events between them. -/
theorem section_of_within (h : Nested source events nodes) {path : KeyPath} {inverted : Bool}
    {children : List Node} {raw : Thunk Text} {tags : Tags} {span : Span}
    (hw : Within (.block path inverted children raw tags span) nodes) :
    ∃ opener inner closer, Bracketed events opener inner closer ∧
      opener.tag.sigil.opens = true ∧ closer.tag.sigil = .close ∧ Nested source inner children ∧
      .block path inverted children raw tags span = opener.enclose source closer children := by
  generalize hn : Node.block path inverted children raw tags span = node at hw
  cases h.origin hw with
  | text t => cases hn
  | single mem single =>
    subst hn
    revert single
    unfold PlacedTag.single
    split <;> simp
  | @block opener closer inner children' bracketed opens closes within =>
    have hchildren : children = children' := by
      simp only [PlacedTag.enclose, Node.block.injEq] at hn
      exact hn.2.2.1
    subst hchildren
    exact ⟨opener, inner, closer, bracketed, opens, closes, within, rfl⟩

theorem block_of_within (h : Nested source events nodes) {path : KeyPath} {inverted : Bool}
    {children : List Node} {raw : Thunk Text} {tags : Tags} {span : Span}
    (hw : Within (.block path inverted children raw tags span) nodes) :
    ∃ opener inner closer, Bracketed events opener inner closer ∧
      opener.tag.sigil.opens = true ∧ Nested source inner children ∧
      .block path inverted children raw tags span = opener.enclose source closer children := by
  obtain ⟨opener, inner, closer, bracketed, opens, -, within, heq⟩ := h.section_of_within hw
  exact ⟨opener, inner, closer, bracketed, opens, within, heq⟩

/-- Each partial comes from a tag, with the indentation that the tag is given. -/
theorem inclusion_of_within (h : Nested source events nodes) {name : Text} {indent : Indent}
    {span : Span} (hw : Within (.inclusion name indent span) nodes) :
    ∃ placed, .tag placed indent ∈ events ∧ placed.tag.sigil = .inclusion ∧
      placed.tag.name = name ∧ placed.span = span := by
  generalize hn : Node.inclusion name indent span = node at hw
  cases h.origin hw with
  | text t => cases hn
  | @single placed i node mem single =>
    subst hn
    unfold PlacedTag.single at single
    split at single <;> simp at single
    obtain ⟨rfl, rfl, rfl⟩ := single
    exact ⟨placed, mem, by assumption, rfl, rfl⟩
  | block bracketed opens closes within => simp [PlacedTag.enclose] at hn

end Nested

/-- Nodes side by side: no text is empty, and no two texts are neighbours. -/
structure Neat (nodes : List Node) : Prop where
  ne_nil : .text [] ∉ nodes
  apart : ∀ front s t back, nodes ≠ front ++ .text s :: .text t :: back

namespace Neat

variable {nodes : List Node} {node : Node}

theorem nil : Neat [] :=
  ⟨by simp, by simp⟩

theorem snoc (h : Neat nodes) (ne_nil : node ≠ .text [])
    (fresh : EndsInText nodes → ∀ t, node ≠ .text t) : Neat (nodes ++ [node]) := by
  constructor
  · rw [List.mem_append, List.mem_singleton, not_or]
    exact ⟨h.ne_nil, ne_nil.symm⟩
  · intro front s t back he
    rcases List.eq_nil_or_concat back with rfl | ⟨back, last, rfl⟩
    · obtain ⟨rfl, hn⟩ := List.append_inj' (show nodes ++ [node] = (front ++ [.text s]) ++ [.text t] by
        simpa using he) rfl
      exact fresh ⟨front, s, rfl⟩ t (by simpa using hn)
    · have hnodes := (List.append_inj'
        (show nodes ++ [node] = (front ++ .text s :: .text t :: back) ++ [last] by simpa using he)
        rfl).1
      exact h.apart front s t back hnodes

/-- All but the last node are neat, and a text comes after no text. -/
theorem of_snoc (h : Neat (nodes ++ [node])) :
    Neat nodes ∧ (EndsInText nodes → ∀ t, node ≠ .text t) := by
  refine ⟨⟨fun hm => h.ne_nil (List.mem_append_left _ hm), ?_⟩, ?_⟩
  · rintro front s t back rfl
    exact h.apart front s t (back ++ [node]) (by simp)
  · rintro ⟨front, s, rfl⟩ t rfl
    exact h.apart front s t [] (by simp)

end Neat

/-- Nested events that write no empty text make neat nodes. -/
theorem Nested.neat {source : Text} {events : List Event} {nodes : List Node}
    (h : Nested source events nodes) (written : .text [] ∉ events) : Neat nodes := by
  induction h with
  | nil => exact .nil
  | text t fresh _ ih =>
    rw [List.mem_append, List.mem_singleton, not_or] at written
    refine (ih written.1).snoc ?_ fun ends => absurd ends fresh
    rintro ht
    exact written.2 (by simpa using ht.symm)
  | more u t _ ih =>
    rw [List.mem_append, List.mem_singleton, not_or] at written
    obtain ⟨hneat, hfresh⟩ := (ih written.1).of_snoc
    refine hneat.snoc ?_ fun ends => absurd rfl (hfresh ends u)
    simp only [ne_eq, Node.text.injEq, List.append_eq_nil_iff, not_and]
    rintro - rfl
    exact written.2 rfl
  | single indent single _ ih =>
    rw [List.mem_append, not_or] at written
    unfold PlacedTag.single
    split
    all_goals
      first
        | exact (ih written.1).snoc (by simp) (by simp)
        | simpa using ih written.1
  | block i j opens closes named _ _ ihf _ =>
    rw [List.mem_append, not_or] at written
    exact (ihf written.1).snoc (by simp [PlacedTag.enclose]) (by simp [PlacedTag.enclose])

/-- The events of a section are among those of the whole. -/
theorem Bracketed.mem {events inner : List Event} {opener closer : PlacedTag} {e : Event}
    (h : Bracketed events opener inner closer) (he : e ∈ inner) : e ∈ events := by
  obtain ⟨front, i, j, back, rfl⟩ := h
  simp [he]

/-- A tree of events that write no empty text is neat at every depth. -/
theorem Nested.neat_level {source : Text} {events : List Event} {nodes level : List Node}
    (h : Nested source events nodes) (written : .text [] ∉ events) (hl : Level nodes level) :
    Neat level := by
  rcases hl with rfl | ⟨path, inverted, raw, tags, span, hw⟩
  · exact h.neat written
  · obtain ⟨opener, inner, closer, hb, -, hn, -⟩ := h.block_of_within hw
    exact hn.neat fun hm => written (hb.mem hm)

end Stencil
