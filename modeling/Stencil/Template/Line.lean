import Stencil.Template.Piece

/-!
# Lines

Whether a tag stands alone is decided with its whole line in view. A tag that stands alone takes the
blanks around it and the line end with it; on any other line everything stays, and the first tag is
told what comes before it.
-/

namespace Stencil

structure Line where
  items : List Item
  terminator : Text
  deriving DecidableEq, Repr

/-- What a line adds to the tree: text, or a tag with the indentation it would give to a partial. -/
inductive Event
  | text (text : Text)
  | tag (placed : PlacedTag) (indent : Indent)
  deriving DecidableEq, Repr

namespace Line

/-- The lines that end with a line end, and the items after the last of them. -/
def split : List Piece → List Line × List Item
  | [] => ([], [])
  | .lineEnd terminator :: pieces =>
    let (lines, last) := split pieces
    (⟨[], terminator⟩ :: lines, last)
  | .item item :: pieces =>
    match split pieces with
    | ([], last) => ([], item :: last)
    | (line :: lines, last) => ({ line with items := item :: line.items } :: lines, last)

/-- The pieces of a line with its line end. -/
def pieces (line : Line) : List Piece :=
  line.items.map .item ++ [.lineEnd line.terminator]

/-- The lines and the items after them are the pieces again. -/
theorem flatMap_pieces_split (ps : List Piece) :
    (split ps).1.flatMap pieces ++ (split ps).2.map .item = ps := by
  fun_induction split ps <;> simp_all [pieces]

/-- Spaces and tabs only. -/
def isBlank (t : Text) : Bool :=
  t.all fun c => c = ' ' || c = '\t'

def placed? : Item → Option PlacedTag
  | .text _ => none
  | .tag placed => some placed

/-- Whether an item leaves room for a tag that stands alone. -/
def admitsLone : Item → Bool
  | .text t => isBlank t
  | .tag placed => placed.tag.sigil.canStandAlone

/-- The tag that stands alone on a line of these items. -/
def lone? (items : List Item) : Option PlacedTag :=
  match items.filterMap placed? with
  | [placed] => if items.all admitsLone then some placed else none
  | _ => none

/-- The text before the first tag. -/
def preceding : List Item → Text
  | .text t :: items => t ++ preceding items
  | _ => []

/-- The items in order; only the first tag gets the given indentation. -/
def inlineEvents (indent : Indent) : List Item → List Event
  | [] => []
  | .text t :: items => .text t :: inlineEvents indent items
  | .tag placed :: items => .tag placed indent :: inlineEvents default items

def events (line : Line) : List Event :=
  match lone? line.items with
  | some placed => [.tag placed (.standalone (preceding line.items))]
  | none =>
    inlineEvents (.inline (preceding line.items)) line.items ++
      if line.terminator.isEmpty then [] else [.text line.terminator]

end Line
end Stencil
