import Stencil.Indent
import Stencil.KeyPath
import Stencil.Tags.Basic

/-!
# Nodes

A compiled template is a list of nodes. Changes of the delimiters are consumed on the way and leave
no node; a block remembers the pair in effect at its opening tag and its source between the tags.
-/

namespace Stencil

/-- A range of bytes of a source. -/
structure Span where
  start : Nat
  stop : Nat
  deriving DecidableEq, Repr

inductive Node
  | text (text : Text)
  | comment (text : Text)
  | interpolation (path : KeyPath) (escape : Bool) (span : Span)
  | inclusion (name : Text) (indent : Indent) (span : Span)
  /-- A section: shown for what its path finds, or for what it does not find if inverted. -/
  | block (path : KeyPath) (inverted : Bool) (children : List Node) (raw : Thunk Text) (tags : Tags)
    (span : Span)

end Stencil
