import Stencil.Proofs.Template.Padded
import Stencil.Proofs.Template.Redraw

/-!
# Lines of padded sources

The lines of a padded source are those of the source with the padding in front. It leaves their tags
as they are, and leaves alone what stands alone.
-/

namespace Stencil

namespace Line

/-- Tags with the indentation of the first of them. -/
def mark (first : Indent) : List PlacedTag → List Mark
  | [] => []
  | placed :: others => (placed, first) :: others.map (·, default)

/-- The tags of a line with their indentations: only the first is told what comes before it. -/
def marks (items : List Item) : List Mark :=
  mark (if (lone? items).isSome then .standalone (preceding items) else .inline (preceding items))
    (items.filterMap placed?)

theorem mark_default (placed : List PlacedTag) : mark default placed = placed.map (·, default) := by
  cases placed <;> rfl

theorem marks_inlineEvents (first : Indent) (items : List Item) :
    Event.marks (inlineEvents first items) = mark first (items.filterMap placed?) := by
  induction items generalizing first with
  | nil => rfl
  | cons item items ih =>
    cases item with
    | text t => exact ih first
    | tag placed =>
      rw [inlineEvents, Event.marks_tag, ih, mark_default]
      rfl

theorem filterMap_placed?_of_lone {items : List Item} {placed : PlacedTag}
    (h : lone? items = some placed) : items.filterMap placed? = [placed] := by
  rw [← tags_items]
  exact tags_of_lone h

theorem marks_events (line : Line) : Event.marks line.events = marks line.items := by
  cases hl : lone? line.items with
  | some placed =>
    rw [events, hl, marks, filterMap_placed?_of_lone hl, hl]
    rfl
  | none =>
    have hend : Event.marks (if line.terminator.isEmpty then [] else [.text line.terminator]) = [] := by
      split <;> rfl
    rw [events, hl, Event.marks_append, marks_inlineEvents, hend, List.append_nil, marks, hl]
    rfl

theorem marks_events_pieces (ps : List Piece) : Event.marks (Piece.events ps) =
    (split ps).1.flatMap (fun line => marks line.items) ++ marks (split ps).2 := by
  have hlines : ∀ lines : List Line, Event.marks (lines.flatMap events) =
      lines.flatMap fun line => marks line.items := by
    intro lines
    induction lines with
    | nil => rfl
    | cons line lines ih => rw [List.flatMap_cons, Event.marks_append, ih, marks_events]; rfl
  rw [Piece.events, Event.marks_append, hlines, marks_events]

/-- A tag of a line is the one that stands alone if there is one. -/
theorem lone?_eq_some_iff {items : List Item} {placed : PlacedTag}
    (h : placed ∈ items.filterMap placed?) :
    lone? items = some placed ↔ (lone? items).isSome = true := by
  cases hl : lone? items with
  | none => simp
  | some found =>
    rw [filterMap_placed?_of_lone hl, List.mem_singleton] at h
    simp [h]

theorem exists_cut {items : List Item} {front back : List PlacedTag} {placed : PlacedTag}
    (h : items.filterMap placed? = front ++ placed :: back) :
    ∃ before after, items = before ++ .tag placed :: after ∧ before.filterMap placed? = front := by
  obtain ⟨before, rest, rfl, hb, hrest⟩ := List.filterMap_eq_append_iff.1 h
  obtain ⟨skipped, item, after, rfl, hskipped, hitem, -⟩ := List.filterMap_eq_cons_iff.1 hrest
  cases item with
  | text t => cases hitem
  | tag found =>
    cases hitem
    refine ⟨before ++ skipped, after, by simp, ?_⟩
    rw [List.filterMap_append, hb, List.filterMap_eq_nil_iff.2 hskipped, List.append_nil]

/-- A tag stands alone if one on its line does. -/
theorem Stands.standalone_iff_isSome {line : Line} {u v rest : Text} {placed : PlacedTag}
    (hs : line.Stands u v rest) (h : placed ∈ line.items.filterMap placed?) :
    placed.Standalone (u ++ (v ++ rest)) ↔ (lone? line.items).isSome = true := by
  obtain ⟨front, back, hsplit⟩ := List.append_of_mem h
  obtain ⟨before, after, hi, -⟩ := exists_cut hsplit
  rw [hs.standalone_iff hi, lone?_eq_some_iff h]

/-- The items of a line after a text is put before them. -/
def prepend (t : Text) : List Item → List Item
  | .text u :: items => .text (t ++ u) :: items
  | items => .text t :: items

section

variable {padding : Text} (items : List Item)

theorem filterMap_placed?_prepend :
    (prepend padding items).filterMap placed? = items.filterMap placed? := by
  cases items with
  | nil => rfl
  | cons item items => cases item <;> rfl

theorem preceding_prepend : preceding (prepend padding items) = padding ++ preceding items := by
  cases items with
  | nil => simp [prepend, preceding]
  | cons item items => cases item <;> simp [prepend, preceding]

theorem lone?_prepend (blank : isBlank padding = true) : lone? (prepend padding items) = lone? items := by
  have hall : (prepend padding items).all admitsLone = items.all admitsLone := by
    cases items with
    | nil => simp [prepend, admitsLone, blank]
    | cons item items => cases item <;> simp [prepend, admitsLone, isBlank_append, blank]
  rw [lone?, lone?, filterMap_placed?_prepend, hall]

end

end Line

/-- The same item in a padded source. -/
inductive Item.Padded (padding : Text) : Item → Item → Prop
  | text (t : Text) : Padded padding (.text t) (.text t)
  | tag {placed again : PlacedTag} (same : PlacedTag.Padded padding placed again) :
    Padded padding (.tag placed) (.tag again)

namespace Line

variable {padding : Text} {items others : List Item}

theorem filterMap_placed?_padded (h : List.Forall₂ (Item.Padded padding) items others) :
    List.Forall₂ (PlacedTag.Padded padding) (items.filterMap placed?) (others.filterMap placed?) := by
  induction h with
  | nil => exact .nil
  | cons hitem _ ih =>
    cases hitem with
    | text t => exact ih
    | tag same => exact .cons same ih

theorem preceding_padded (h : List.Forall₂ (Item.Padded padding) items others) :
    preceding others = preceding items := by
  induction h with
  | nil => rfl
  | cons hitem _ ih =>
    cases hitem with
    | text t => rw [preceding, preceding, ih]
    | tag same => rfl

theorem isSome_lone?_padded (h : List.Forall₂ (Item.Padded padding) items others) :
    (lone? others).isSome = (lone? items).isSome := by
  have hall : others.all admitsLone = items.all admitsLone := by
    induction h with
    | nil => rfl
    | cons hitem _ ih =>
      rw [List.all_cons, List.all_cons, ih]
      cases hitem with
      | text t => rfl
      | tag same => simp [admitsLone, same.sigil]
  have htags := filterMap_placed?_padded h
  rw [lone?, lone?, hall]
  generalize items.filterMap placed? = found at htags
  generalize others.filterMap placed? = again at htags
  cases htags with
  | nil => rfl
  | cons _ hmore =>
    cases hmore with
    | nil =>
      dsimp only
      split <;> rfl
    | cons _ _ => rfl

/-- The same line in a padded source; `fresh` says that its start is to be padded. -/
inductive Padded (padding : Text) : (fresh : Bool) → Line → Line → Prop
  | same {items others : List Item} (terminator : Text)
    (alike : List.Forall₂ (Item.Padded padding) items others) :
    Padded padding false ⟨items, terminator⟩ ⟨others, terminator⟩
  /-- A line without a tag may be empty. -/
  | bare {items : List Item} (terminator : Text) (none : items.filterMap placed? = []) :
    Padded padding true ⟨items, terminator⟩ ⟨items, terminator⟩
  | fresh {items others : List Item} (terminator : Text)
    (alike : List.Forall₂ (Item.Padded padding) items others) :
    Padded padding true ⟨items, terminator⟩ ⟨prepend padding others, terminator⟩

/-- The lines of a padded source beside those of the source. -/
inductive AllPadded (padding : Text) :
    (fresh : Bool) → List Line × List Item → List Line × List Item → Prop
  | last {fresh : Bool} {items others : List Item}
    (same : Padded padding fresh ⟨items, []⟩ ⟨others, []⟩) :
    AllPadded padding fresh ([], items) ([], others)
  | more {fresh : Bool} {line other : Line} {lines others : List Line} {last end_ : List Item}
    (same : Padded padding fresh line other)
    (rest : AllPadded padding true (lines, last) (others, end_)) :
    AllPadded padding fresh (line :: lines, last) (other :: others, end_)

section

variable {fresh : Bool} {pieces others : List Piece}

/-- The lines after a change of the items at the start. -/
def onFirst (f : List Item → List Item) : List Line × List Item → List Line × List Item
  | ([], last) => ([], f last)
  | (line :: lines, last) => ({ line with items := f line.items } :: lines, last)

theorem split_item (item : Item) (pieces : List Piece) :
    split (.item item :: pieces) = onFirst (item :: ·) (split pieces) := by
  rw [split]
  rcases split pieces with ⟨_ | ⟨line, lines⟩, last⟩ <;> rfl

theorem AllPadded.onFirst {f g : List Item → List Item} {one two : List Line × List Item}
    (h : AllPadded padding false one two)
    (hline : ∀ {items others : List Item}, List.Forall₂ (Item.Padded padding) items others →
      ∀ terminator, Padded padding fresh ⟨f items, terminator⟩ ⟨g others, terminator⟩) :
    AllPadded padding fresh (Line.onFirst f one) (Line.onFirst g two) := by
  cases h with
  | last same =>
    cases same with
    | same terminator alike => exact .last (hline alike _)
  | more same rest =>
    cases same with
    | same terminator alike => exact .more (hline alike _) rest

theorem Padded.empty (fresh : Bool) (terminator : Text) :
    Padded padding fresh ⟨[], terminator⟩ ⟨[], terminator⟩ := by
  cases fresh with
  | false => exact .same terminator .nil
  | true => exact .bare terminator rfl

/-- Pieces of a padded source make up padded lines. -/
theorem allPadded_split (h : Piece.Padded padding fresh pieces others) :
    AllPadded padding fresh (split pieces) (split others) := by
  induction h with
  | nil => exact .last (.empty _ _)
  | lineEnd terminator _ ih => exact .more (.empty _ _) ih
  | lastReturn => exact .last (.bare _ rfl)
  | text t _ ih =>
    rw [split_item, split_item]
    exact ih.onFirst fun alike terminator => .same terminator (.cons (.text t) alike)
  | tag same _ ih =>
    rw [split_item, split_item]
    exact ih.onFirst fun alike terminator => .same terminator (.cons (.tag same) alike)
  | freshText t _ ih =>
    rw [split_item, split_item]
    exact ih.onFirst fun alike terminator => .fresh terminator (.cons (.text t) alike)
  | @freshTag pieces padded placed again same _ ih =>
    have hfront : split (.item (.text padding) :: .item (.tag again) :: padded) =
        Line.onFirst (prepend padding ∘ (.tag again :: ·)) (split padded) := by
      rw [split_item, split_item]
      rcases split padded with ⟨_ | ⟨line, lines⟩, last⟩ <;> rfl
    rw [split_item, hfront]
    exact ih.onFirst fun alike terminator => .fresh terminator (.cons (.tag same) alike)

end

end Line

end Stencil
