import Mathlib.Data.List.Forall2
import Stencil.Proofs.Template.Shift

/-!
# Trees from the same tags

The nodes of a tree that are no texts depend on its tags alone. Events whose tags go together pair by
pair build trees whose nodes do, as long as tags that share a name go with tags that share one.
-/

namespace Stencil

/-- A tag as a line passes it on. -/
abbrev Mark := PlacedTag × Indent

namespace Event

def mark? : Event → Option Mark
  | .text _ => none
  | .tag placed indent => some (placed, indent)

/-- The tags among events with their indentations. -/
def marks (events : List Event) : List Mark :=
  events.filterMap mark?

@[simp] theorem marks_append (front back : List Event) :
    marks (front ++ back) = marks front ++ marks back :=
  List.filterMap_append

@[simp] theorem marks_nil : marks [] = [] := rfl

@[simp] theorem marks_text (t : Text) (events : List Event) :
    marks (.text t :: events) = marks events := rfl

@[simp] theorem marks_tag (placed : PlacedTag) (indent : Indent) (events : List Event) :
    marks (.tag placed indent :: events) = (placed, indent) :: marks events := rfl

theorem tags_eq_map_marks (events : List Event) : tags events = (marks events).map Prod.fst := by
  induction events with
  | nil => rfl
  | cons e events ih => cases e <;> simp [ih]

/-- Where a mark goes with one of some events, these can be parted there. -/
theorem exists_split_of_forall₂ {goesWith : Mark → Mark → Prop} {events : List Event}
    {front back : List Mark} {placed : PlacedTag} {indent : Indent}
    (h : List.Forall₂ goesWith (front ++ (placed, indent) :: back) (marks events)) :
    ∃ before again other after, events = before ++ .tag again other :: after ∧
      goesWith (placed, indent) (again, other) ∧ List.Forall₂ goesWith front (marks before) ∧
      List.Forall₂ goesWith back (marks after) := by
  induction events generalizing front with
  | nil => simp at h
  | cons e events ih =>
    cases e with
    | text t =>
      obtain ⟨before, again, other, after, rfl, hmark, hfront, hback⟩ := ih h
      exact ⟨.text t :: before, again, other, after, rfl, hmark, hfront, hback⟩
    | tag again other =>
      rw [marks_tag] at h
      cases front with
      | nil =>
        obtain ⟨hmark, hback⟩ := List.forall₂_cons.1 h
        exact ⟨[], again, other, events, rfl, hmark, .nil, hback⟩
      | cons mark front =>
        obtain ⟨hfirst, hrest⟩ := List.forall₂_cons.1 h
        obtain ⟨before, found, indent, after, rfl, hmark, hfront, hback⟩ := ih hrest
        exact ⟨.tag again other :: before, found, indent, after, rfl, hmark, .cons hfirst hfront,
          hback⟩

end Event

namespace Node

/-- The nodes that come from tags. -/
def withoutTexts (nodes : List Node) : List Node :=
  nodes.filter fun node => !node.isText

@[simp] theorem withoutTexts_append (front back : List Node) :
    withoutTexts (front ++ back) = withoutTexts front ++ withoutTexts back :=
  List.filter_append ..

@[simp] theorem withoutTexts_text (t : Text) : withoutTexts [.text t] = [] := rfl

@[simp] theorem withoutTexts_single (placed : PlacedTag) (indent : Indent) :
    withoutTexts (placed.single indent) = placed.single indent := by
  unfold PlacedTag.single
  cases placed.tag.sigil <;> rfl

@[simp] theorem withoutTexts_enclose (source : Text) (opener closer : PlacedTag)
    (children : List Node) : withoutTexts [opener.enclose source closer children] =
      [opener.enclose source closer children] := rfl

end Node

namespace Nested

variable {source other : Text} {events : List Event} {nodes : List Node}

/-- Texts can always follow, and are all that is added. -/
theorem append_texts (h : Nested source events nodes) {more : List Event}
    (hm : Event.marks more = []) : ∃ after, Nested source (events ++ more) after ∧
      Node.withoutTexts after = Node.withoutTexts nodes := by
  induction more generalizing events nodes with
  | nil => exact ⟨nodes, by simpa using h, rfl⟩
  | cons e more ih =>
    cases e with
    | tag placed indent => simp at hm
    | text t =>
      have hstep : ∃ next, Nested source (events ++ [.text t]) next ∧
          Node.withoutTexts next = Node.withoutTexts nodes := by
        by_cases fresh : EndsInText nodes
        · obtain ⟨front, u, rfl⟩ := fresh
          exact ⟨_, .more u t h, by simp⟩
        · exact ⟨_, .text t fresh h, by simp⟩
      obtain ⟨next, hnext, hout⟩ := hstep
      obtain ⟨after, hafter, hout'⟩ := ih hnext (by simpa using hm)
      exact ⟨after, by simpa using hafter, hout'.trans hout⟩

/-- What makes the nodes of marks go together: sections match alike, and so do their nodes and those
of single tags. -/
structure Draws (source other : Text) (goesWith : Mark → Mark → Prop)
    (alike : Node → Node → Prop) : Prop where
  sigil : ∀ {mark again}, goesWith mark again → again.1.tag.sigil = mark.1.tag.sigil
  name : ∀ {mark again opener closer}, goesWith mark opener → goesWith again closer →
    mark.1.tag.name = again.1.tag.name → opener.1.tag.name = closer.1.tag.name
  single : ∀ {mark again}, goesWith mark again →
    List.Forall₂ alike (mark.1.single mark.2) (again.1.single again.2)
  block : ∀ {opener closer first last children again}, goesWith opener first →
    goesWith closer last →
    List.Forall₂ alike (Node.withoutTexts children) (Node.withoutTexts again) →
    alike (opener.1.enclose source closer.1 children) (first.1.enclose other last.1 again)

/-- Where the tags go together, the nodes that come from them do. -/
theorem redraw_along {goesWith : Mark → Mark → Prop} {alike : Node → Node → Prop}
    (draws : Draws source other goesWith alike) (h : Nested source events nodes)
    {moved : List Event} (hm : List.Forall₂ goesWith (Event.marks events) (Event.marks moved)) :
    ∃ again, Nested other moved again ∧
      List.Forall₂ alike (Node.withoutTexts nodes) (Node.withoutTexts again) := by
  induction h generalizing moved with
  | nil =>
    obtain ⟨again, hn, ho⟩ := append_texts (.nil : Nested other [] [])
      (List.forall₂_nil_left_iff.1 hm)
    exact ⟨again, hn, by rw [ho]; exact .nil⟩
  | text t fresh _ ih =>
    obtain ⟨again, hn, ho⟩ := ih (by simpa using hm)
    exact ⟨again, hn, by simpa using ho⟩
  | more u t _ ih =>
    obtain ⟨again, hn, ho⟩ := ih (by simpa using hm)
    exact ⟨again, hn, by simpa using ho⟩
  | @single events nodes placed indent single _ ih =>
    rw [Event.marks_append, Event.marks_tag] at hm
    obtain ⟨before, found, j, after, rfl, hmark, hbefore, hafter⟩ :=
      Event.exists_split_of_forall₂ hm
    obtain ⟨front, hf, hof⟩ := ih hbefore
    have hfound : found.tag.sigil.isSingle = true := by
      rw [draws.sigil hmark]
      exact single
    have hstep : Nested other (before ++ [.tag found j]) (front ++ found.single j) :=
      .single j hfound hf
    obtain ⟨again, hn, ho⟩ := hstep.append_texts (List.forall₂_nil_left_iff.1 hafter)
    refine ⟨again, by simpa using hn, ?_⟩
    rw [ho, Node.withoutTexts_append, Node.withoutTexts_append, Node.withoutTexts_single,
      Node.withoutTexts_single]
    exact List.rel_append hof (draws.single hmark)
  | @block events inner nodes children opener closer i j opens closes named _ _ ihf ihw =>
    rw [Event.marks_append, Event.marks_tag, Event.marks_append, Event.marks_tag] at hm
    obtain ⟨before, first, i', rest, rfl, hopener, hbefore, hrest⟩ :=
      Event.exists_split_of_forall₂ hm
    obtain ⟨mid, last, j', after, rfl, hcloser, hmid, hafter⟩ :=
      Event.exists_split_of_forall₂ hrest
    obtain ⟨front, hf, hof⟩ := ihf hbefore
    obtain ⟨within, hw, how⟩ := ihw hmid
    have hopens : first.tag.sigil.opens = true := by
      rw [draws.sigil hopener]
      exact opens
    have hcloses : last.tag.sigil = .close := (draws.sigil hcloser).trans closes
    have hstep : Nested other (before ++ .tag first i' :: (mid ++ [.tag last j']))
        (front ++ [first.enclose other last within]) :=
      .block i' j' hopens hcloses (draws.name hopener hcloser named) hf hw
    obtain ⟨again, hn, ho⟩ := hstep.append_texts (List.forall₂_nil_left_iff.1 hafter)
    refine ⟨again, by simpa using hn, ?_⟩
    rw [ho, Node.withoutTexts_append, Node.withoutTexts_append, Node.withoutTexts_enclose,
      Node.withoutTexts_enclose]
    exact List.rel_append hof (.cons (draws.block hopener hcloser how) .nil)

end Nested
end Stencil
