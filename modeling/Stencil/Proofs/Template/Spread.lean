import Stencil.Proofs.Template.Atoms

/-!
# Lines that keep their text

The events of a line on which no tag stands alone are its pieces, in order; all that the line does is
to tell the first tag what comes before it.
-/

namespace Stencil

open Event (spell)

namespace Line

def singles (line : Line) : Line :=
  { line with items := line.items.flatMap Item.singles }

theorem split_items (items : List Item) (pieces : List Piece) :
    split (items.map .item ++ pieces) = onFirst (items ++ ·) (split pieces) := by
  induction items with
  | nil => rcases hs : split pieces with ⟨_ | _, _⟩ <;> simp [onFirst, hs]
  | cons item items ih =>
    rw [List.map_cons, List.cons_append, split_item, ih]
    rcases split pieces with ⟨_ | _, _⟩ <;> rfl

theorem split_singles (pieces : List Piece) : split (pieces.flatMap Piece.singles) =
    ((split pieces).1.map singles, (split pieces).2.flatMap Item.singles) := by
  induction pieces with
  | nil => rfl
  | cons piece pieces ih =>
    rw [List.flatMap_cons]
    cases piece with
    | lineEnd t => simp [Piece.singles, split, ih, singles]
    | item item =>
      rw [Piece.singles, split_items, ih, split_item]
      rcases split pieces with ⟨_ | _, _⟩ <;> simp [onFirst, singles]

section
variable (items : List Item)

theorem lone?_singles : lone? (items.flatMap Item.singles) = lone? items := by
  have hplaced : ∀ item : Item, item.singles.filterMap placed? = (placed? item).toList := by
    intro item
    cases item with
    | text t => simp [Item.singles, List.filterMap_map, placed?, Function.comp_def]
    | tag placed => rfl
  have hall : ∀ item : Item, item.singles.all admitsLone = admitsLone item := by
    intro item
    cases item with
    | text t => simp [Item.singles, admitsLone, isBlank, List.all_map, Function.comp_def]
    | tag placed => simp [Item.singles]
  have hfilter : (items.flatMap Item.singles).filterMap placed? = items.filterMap placed? := by
    induction items with
    | nil => rfl
    | cons item items ih =>
      rw [List.flatMap_cons, List.filterMap_append, hplaced, ih]
      cases item <;> rfl
  have hadmits : (items.flatMap Item.singles).all admitsLone = items.all admitsLone := by
    rw [List.all_flatMap]
    exact congrArg items.all (funext hall)
  rw [lone?, lone?, hfilter, hadmits]

theorem preceding_append_texts (t : Text) (items : List Item) :
    preceding ((t.map fun c => Item.text [c]) ++ items) = t ++ preceding items := by
  induction t with
  | nil => rfl
  | cons c t ih => simp [preceding, ih]

theorem preceding_singles : preceding (items.flatMap Item.singles) = preceding items := by
  induction items with
  | nil => rfl
  | cons item items ih =>
    cases item with
    | text t => rw [List.flatMap_cons, Item.singles, preceding_append_texts, ih, preceding]
    | tag placed => rfl

end
end Line

namespace Piece

/-- The events of pieces whose first tag is given an indentation. -/
def spread : (indent : Indent) → List Piece → List Event
  | _, [] => []
  | indent, .item (.tag placed) :: pieces => .tag placed indent :: spread default pieces
  | indent, piece :: pieces => .text piece.outside :: spread indent pieces

variable {indent other : Indent} {pieces front back : List Piece}

@[simp] theorem spread_text (t : Text) (pieces : List Piece) :
    spread indent (.item (.text t) :: pieces) = .text t :: spread indent pieces := rfl

@[simp] theorem spread_lineEnd (t : Text) (pieces : List Piece) :
    spread indent (.lineEnd t :: pieces) = .text t :: spread indent pieces := rfl

@[simp] theorem spread_tag (placed : PlacedTag) (pieces : List Piece) :
    spread indent (.item (.tag placed) :: pieces) = .tag placed indent :: spread default pieces := rfl

theorem spread_items (indent : Indent) (items : List Item) :
    spread indent (items.map .item) = Line.inlineEvents indent items := by
  induction items generalizing indent with
  | nil => rfl
  | cons item items ih => cases item <;> simp [Line.inlineEvents, ih]

theorem tags_spread (indent : Indent) (pieces : List Piece) :
    Event.tags (spread indent pieces) = tags pieces := by
  induction pieces generalizing indent with
  | nil => rfl
  | cons piece pieces ih =>
    cases piece with
    | lineEnd t => simp [ih]
    | item item => cases item <;> simp [ih]

/-- Without a tag no indentation is told. -/
theorem spread_congr (h : tags pieces = []) : spread indent pieces = spread other pieces := by
  induction pieces with
  | nil => rfl
  | cons piece pieces ih =>
    cases piece with
    | lineEnd t => simp [ih (by simpa using h)]
    | item item =>
      cases item with
      | text t => simp [ih (by simpa using h)]
      | tag placed => simp at h

theorem spread_append (indent : Indent) (front back : List Piece) :
    spread indent (front ++ back) =
      spread indent front ++ spread (if (tags front).isEmpty then indent else default) back := by
  induction front generalizing indent with
  | nil => simp [spread]
  | cons piece front ih =>
    cases piece with
    | lineEnd t => simp [ih]
    | item item =>
      cases item with
      | text t => simp [ih]
      | tag placed => simp [ih]

theorem spell_spread_singles (indent : Indent) (pieces : List Piece) :
    spell (spread indent (pieces.flatMap singles)) = spell (spread indent pieces) := by
  induction pieces generalizing indent with
  | nil => rfl
  | cons piece pieces ih =>
    rw [List.flatMap_cons]
    cases piece with
    | lineEnd t => simp [singles, Event.spell_cons, ih]
    | item item =>
      cases item with
      | tag placed => simp [singles, Item.singles, Event.spell_cons, ih]
      | text t =>
        rw [spread_text, Event.spell_cons, ← ih indent, Event.chars]
        induction t with
        | nil => rfl
        | cons c t iht => simpa [singles, Item.singles, Event.spell_cons, Event.chars] using iht

end Piece

namespace Line

theorem events_of_none {line : Line} (h : lone? line.items = none) : line.events =
    Piece.spread (.inline (preceding line.items)) (line.items.map .item ++ ending line.terminator) := by
  rw [Piece.spread_append, Piece.spread_items, events, h, ending]
  by_cases ht : line.terminator.isEmpty = true
  · simp [ht, Piece.spread]
  · simp [ht, Piece.spread]

/-- Character by character a line gives the same events. -/
theorem spell_events_singles (line : Line) : spell line.singles.events = spell line.events := by
  cases hl : lone? line.items with
  | some placed =>
    have hsingles : lone? line.singles.items = some placed := (lone?_singles _).trans hl
    have hpreceding : preceding line.singles.items = preceding line.items := preceding_singles _
    rw [events, hsingles, events, hl, hpreceding]
  | none =>
    have hsingles : lone? line.singles.items = none := (lone?_singles _).trans hl
    have hpieces : line.singles.items.map .item ++ ending line.singles.terminator =
        (line.items.map Piece.item ++ ending line.terminator).flatMap Piece.singles := by
      have hitems : (line.items.flatMap Item.singles).map Piece.item =
          (line.items.map Piece.item).flatMap Piece.singles := by
        simp [List.map_flatMap, List.flatMap_map, Piece.singles]
      have hending : (ending line.terminator).flatMap Piece.singles = ending line.terminator := by
        rw [ending]
        split <;> rfl
      rw [List.flatMap_append, hending, ← hitems]
      rfl
    rw [events_of_none hsingles, events_of_none hl, hpieces, Piece.spell_spread_singles,
      show preceding line.singles.items = preceding line.items from preceding_singles _]

end Line

namespace Piece

/-- Character by character pieces give the same events. -/
theorem spell_events_singles (pieces : List Piece) :
    spell (events (pieces.flatMap singles)) = spell (events pieces) := by
  have hlines : ∀ lines : List Line, spell ((lines.map Line.singles).flatMap Line.events) =
      spell (lines.flatMap Line.events) := by
    intro lines
    induction lines with
    | nil => rfl
    | cons line lines ih => simp [Line.spell_events_singles, ih]
  rw [events, Line.split_singles, events, Event.spell_append, Event.spell_append, hlines]
  exact congrArg _ (Line.spell_events_singles ⟨(Line.split pieces).2, []⟩)

end Piece

/-- The events of pieces can be told from their characters. -/
theorem Laid.spell_events {n : Nat} {t : Text} {pieces : List Piece} (h : Laid n t pieces) :
    spell (Piece.events (Piece.closeLines (pieces.flatMap Piece.atoms))) =
      spell (Piece.events pieces) := by
  rw [h.closeLines_atoms, Piece.spell_events_singles]

end Stencil
