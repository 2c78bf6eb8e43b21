import Stencil.Location
import Stencil.Tags.Basic
import Stencil.Value.Kind

/-!
# Errors

Only structural faults are errors: a template that is no text, a malformed tag, sections that do not
match, and a pending value whose producer failed. A missing path, a missing partial or a lambda that
returns nothing give empty text.
-/

namespace Stencil

/-- Why a tag or a pair of delimiters is malformed. -/
inductive Fault
  /-- One side of the pair is empty or holds a blank. -/
  | invalidTags (tags : Tags)
  /-- A change of the pair is not written between equals signs. -/
  | invalidChange
  /-- A change of the pair does not name exactly two delimiters. -/
  | invalidChangeTags (names : Text)
  | unclosedTag
  /-- A tag closes without an opening or without a body. -/
  | malformedTag
  deriving DecidableEq, Repr

def Fault.message : Fault → Text
  | .invalidTags tags =>
    "Invalid tags: ".toList ++ tags.opening.quote ++ ' ' :: tags.closing.quote
  | .invalidChange => "Invalid delimiter change tag".toList
  | .invalidChangeTags names => "Invalid tags: ".toList ++ names
  | .unclosedTag => "Unclosed tag".toList
  | .malformedTag => "Malformed tag".toList

/-- How the tags of a section fail to match. -/
inductive Imbalance
  | unopened
  | unclosed
  /-- A closing tag with another name is met before the section's own. -/
  | closedBy (name : Text)
  deriving DecidableEq, Repr

def Imbalance.message : Imbalance → Text
  | .unopened => "Unopened section".toList
  | .unclosed => "Unclosed section".toList
  | .closedBy name => "Unclosed section, found closing tag \"".toList ++ name ++ ['"']

inductive Error
  /-- The template handed to a render is a value of this kind and not a text. -/
  | templateKind (given : Kind)
  | malformed (fault : Fault) (location : Location)
  | unbalanced (name : Text) (imbalance : Imbalance) (location : Location)
  /-- The producer of a pending value failed. -/
  | valueFailed (reason : Text)
  deriving DecidableEq, Repr

namespace Error

/-- A fault at a byte offset of a source. -/
def malformedAt (source : Text) (offset : Nat) (fault : Fault) : Error :=
  .malformed fault (.ofOffset source offset)

/-- An imbalance of the named section at a byte offset of a source. -/
def unbalancedAt (source : Text) (offset : Nat) (name : Text) (imbalance : Imbalance) : Error :=
  .unbalanced name imbalance (.ofOffset source offset)

/-- The only kind of value that a template may be. -/
def expected : Kind := .string

def message : Error → Text
  | .templateKind given =>
    "Invalid template! Template should be a \"".toList ++ expected.name ++ "\" but \"".toList ++
      given.name ++
      "\" was given as the first argument for render(template, view, partials)".toList
  | .malformed fault location =>
    "Syntax error at ".toList ++ location.text ++ ": ".toList ++ fault.message
  | .unbalanced name imbalance location =>
    "Unbalanced section \"".toList ++ name ++ "\" at ".toList ++ location.text ++ ": ".toList ++
      imbalance.message
  | .valueFailed reason => "Value resolution failed: ".toList ++ reason

end Error
end Stencil
