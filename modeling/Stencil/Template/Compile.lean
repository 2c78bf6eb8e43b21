import Stencil.Template.Builder

/-!
# Compilation

From a source and its first pair of delimiters to nodes: tokens, pieces, lines, events, tree. Faults
win in the order in which the lines end: the sections of a complete line are matched before the
tokens after it are read.
-/

namespace Stencil
namespace Template

/-- Builds the nodes of a token list over a source; `failure` is what ended the tokens. -/
def ofTokens (source : Text) (tokens : List Token) (failure : Option Error) (tags : Tags) :
    Except Error (List Node) := do
  let (pieces, stop) := Piece.ofTokens source failure none none tags tokens
  let (lines, last) := Line.split pieces
  let built ← (Builder.empty source).run (lines.flatMap Line.events)
  match stop with
  | some error => throw error
  | none =>
    let built ← built.run (Line.events ⟨last, []⟩)
    built.finish

/-- The nodes of a source that starts under the given pair. -/
def compile (source : Text) (tags : Tags) : Except Error (List Node) :=
  let tokens := Tokens.scan source tags
  ofTokens source tokens.list tokens.failure tags

end Template
end Stencil
