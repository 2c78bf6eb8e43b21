import Stencil.Node
import Stencil.Tag
import Stencil.Token

/-!
# Pieces

Tokens read as what a line is made of: runs of text, whole tags and line ends. A tag is placed: it
knows its span and the pair in effect before any change that it makes. Reading stops at the first
failure, and the pieces read so far stay.
-/

namespace Stencil

structure PlacedTag where
  tag : Tag
  span : Span
  tags : Tags
  deriving DecidableEq, Repr

/-- What stands on a line. -/
inductive Item
  | text (text : Text)
  | tag (placed : PlacedTag)
  deriving DecidableEq, Repr

inductive Piece
  | item (item : Item)
  | lineEnd (terminator : Text)
  deriving DecidableEq, Repr

namespace Piece

def consChar (c : Char) : List Piece → List Piece
  | .item (.text t) :: pieces => .item (.text (c :: t)) :: pieces
  | pieces => .item (.text [c]) :: pieces

/-- The runs and line ends of a text. A carriage return belongs to a line feed that follows it. -/
def ofText : Text → List Piece
  | [] => []
  | '\r' :: '\n' :: t => .lineEnd ['\r', '\n'] :: ofText t
  | '\n' :: t => .lineEnd ['\n'] :: ofText t
  | c :: t => consChar c (ofText t)

/-- The characters of a piece that are not inside a tag. -/
def outside : Piece → Text
  | .item (.text t) => t
  | .item (.tag _) => []
  | .lineEnd terminator => terminator

theorem flatMap_outside_consChar (c : Char) (pieces : List Piece) :
    (consChar c pieces).flatMap outside = c :: pieces.flatMap outside := by
  unfold consChar
  split <;> simp [outside]

/-- Cutting a text into runs and line ends loses nothing. -/
theorem flatMap_outside_ofText (t : Text) : (ofText t).flatMap outside = t := by
  fun_induction ofText t with
  | case1 => rfl
  | case2 t ih => simp [outside, ih]
  | case3 t ih => simp [outside, ih]
  | case4 c t _ _ ih => simp [flatMap_outside_consChar, ih]

/-- Reads tokens over a source. `opened` is where a tag has opened and `body` its body, as far as
they have been seen; `failure` is what ended the tokens. -/
def ofTokens (source : Text) (failure : Option Error) (opened : Option Nat) (body : Option Token)
    (tags : Tags) : List Token → List Piece × Option Error
  | [] =>
    ([], failure <|> opened.map fun start => .malformedAt source start .unclosedTag)
  | token :: tokens =>
    match token.kind with
    | .text =>
      let (pieces, stop) := ofTokens source failure opened body tags tokens
      (ofText token.raw ++ pieces, stop)
    | .opening => ofTokens source failure (some token.start) body tags tokens
    | .body | .change => ofTokens source failure opened (some token) tags tokens
    | .closing =>
      match opened, body with
      | some start, some body =>
        match Token.nextTags body.kind body.raw tags with
        | .error fault => ([], some (.malformedAt source start fault))
        | .ok next =>
          let (pieces, stop) := ofTokens source failure none none next tokens
          (.item (.tag ⟨.parse body.raw, ⟨start, token.stop⟩, tags⟩) :: pieces, stop)
      | _, _ => ([], some (.malformedAt source token.start .malformedTag))

end Piece
end Stencil
