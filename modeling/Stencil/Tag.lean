import Stencil.Text.Blank

/-!
# Tag bodies

The first character of a body that is not blank says what the tag asks for. The rest, without the
blanks around it, is the name.
-/

namespace Stencil

inductive Sigil
  /-- No sigil: escaped interpolation. -/
  | escaped
  /-- Ampersand: interpolation as is. -/
  | ampersand
  /-- Opening brace: interpolation as is. -/
  | triple
  | block
  | inverted
  | close
  | inclusion
  | comment
  | delimiters
  deriving DecidableEq, Repr

namespace Sigil

def ofChar? : Char → Option Sigil
  | '&' => some .ampersand
  | '{' => some .triple
  | '#' => some .block
  | '^' => some .inverted
  | '/' => some .close
  | '>' => some .inclusion
  | '!' => some .comment
  | '=' => some .delimiters
  | _ => none

/-- Whether a tag of this kind disappears with its line when nothing else is on it. -/
def canStandAlone : Sigil → Bool
  | .escaped | .ampersand | .triple => false
  | _ => true

end Sigil

structure Tag where
  sigil : Sigil
  name : Text
  leading : Text
  trailing : Text
  deriving DecidableEq, Repr

namespace Tag

/-- The sigil of a body without blanks at its front, and what follows the sigil. -/
def splitSigil : Text → Sigil × Text
  | [] => (.escaped, [])
  | c :: t =>
    match Sigil.ofChar? c with
    | some sigil => (sigil, t)
    | none => (.escaped, c :: t)

/-- Removes an equals sign at the end. -/
def dropEquals (t : Text) : Text :=
  if t.getLast? = some '=' then t.dropLast else t

/-- Splits a body. A change of delimiters may repeat its sigil at the end; a rest of blanks only is
both the leading and the trailing blanks. -/
def parse (body : Text) : Tag :=
  let (sigil, rest) := splitSigil body.trimStart
  let rest := if sigil = .delimiters then dropEquals rest else rest
  ⟨sigil, rest.trim, rest.leading, rest.trailing⟩

end Tag
end Stencil
