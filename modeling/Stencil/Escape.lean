import Stencil.Text.Basic

/-!
# Escape functions

An escape function is applied to the text of an escaped interpolation, and to nothing else. Any
function will do; the one for HTML is the default.
-/

namespace Stencil

abbrev Escape := Text → Text

namespace Escape

def htmlChar (c : Char) : Text :=
  if c = '&' then "&amp;".toList
  else if c = '<' then "&lt;".toList
  else if c = '>' then "&gt;".toList
  else if c = '"' then "&quot;".toList
  else if c = '\'' then "&#39;".toList
  else [c]

/-- Writes the five special characters of HTML as entities. -/
def html : Escape :=
  List.flatMap htmlChar

theorem html_append (s t : Text) : html (s ++ t) = html s ++ html t := by
  simp [html]

/-- Leaves the text as it is. -/
def plain : Escape := id

/-- Puts the letters of ASCII into upper case. -/
def upper : Escape :=
  List.map Char.toUpper

/-- Puts a text on either side. -/
def wrap (before after : Text) : Escape := fun t =>
  before ++ t ++ after

/-- Replaces the first occurrence of a text; the empty text occurs at the front. -/
def replaceFirst (old new : Text) : Escape := fun t =>
  match Text.breakAt? old t with
  | some (before, after) => before ++ new ++ after
  | none => t

end Escape
end Stencil
