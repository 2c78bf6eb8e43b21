import Stencil.Text.Basic

/-!
# Indentation of partials

A partial that stands alone on its line pads every line of the included text. One that shares its
line pads only the lines after the first, up to the column of its tag. Empty lines are never padded,
nor is what follows the last line feed if it is empty.
-/

namespace Stencil

structure Indent where
  padding : Text
  firstLine : Bool
  deriving DecidableEq, Repr

namespace Indent

/-- No indentation. -/
instance : Inhabited Indent where
  default := ⟨[], false⟩

def standalone (padding : Text) : Indent :=
  ⟨padding, true⟩

/-- Pads to the column reached after `preceding`: a tab stays a tab, and any other character counts
as a space. -/
def inline (preceding : Text) : Indent :=
  let columns := preceding.filter fun c => c != '\r' && c != '\n'
  ⟨columns.map fun c => if c = '\t' then '\t' else ' ', false⟩

def isEmpty (indent : Indent) : Bool :=
  indent.padding.isEmpty

/-- A line that holds nothing, or nothing but the carriage return of its end. -/
def isEmptyLine (line : Text) : Bool :=
  line = [] || line = ['\r']

def padLine (padding line : Text) : Text :=
  if isEmptyLine line then line else padding ++ line

/-- The lines after padding: the first only if the indentation says so. -/
def padLines (indent : Indent) : List Text → List Text
  | [] => []
  | first :: rest =>
    (if indent.firstLine then padLine indent.padding first else first) ::
      rest.map (padLine indent.padding)

def apply (indent : Indent) (t : Text) : Text :=
  ['\n'].intercalate (indent.padLines (t.splitAtChar '\n'))

@[simp] theorem padLine_nil : padLine [] = id := by
  funext line
  simp [padLine]

theorem apply_of_isEmpty {indent : Indent} (h : indent.isEmpty = true) (t : Text) :
    indent.apply t = t := by
  have hp : indent.padding = [] := by simpa [isEmpty] using h
  have hl : ∀ lines, indent.padLines lines = lines := by
    intro lines
    cases lines <;> simp [padLines, hp]
  rw [apply, hl, Text.intercalate_splitAtChar]

end Indent
end Stencil
