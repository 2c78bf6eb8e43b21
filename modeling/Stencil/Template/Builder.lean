import Stencil.Template.Line
import Stencil.Text.Cursor

/-!
# Building the tree

Events go into the innermost open section. A closing tag must name it, and no section may be open at
the end. Neighbouring texts become one node.
-/

namespace Stencil

/-- A section whose closing tag has not been met, with the nodes before it, last first, and what
follows its opening tag in the source. -/
structure OpenSection (source : Text) where
  placed : PlacedTag
  before : List Node
  after : Text
  after_eq : after = source.dropBytes placed.span.stop

structure Builder (source : Text) where
  /-- The nodes of the innermost open section, last first. -/
  nodes : List Node
  /-- The texts after the last of them, last first. -/
  texts : List Text
  /-- The open sections, innermost first. -/
  opened : List (OpenSection source)
  /-- Where the last section has opened. -/
  cursor : Text.Cursor source

namespace Builder

variable {source : Text}

def empty (source : Text) : Builder source :=
  ⟨[], [], [], .start source⟩

/-- The nodes of the innermost open section, last first, with one for the texts after them. -/
def gathered (b : Builder source) : List Node :=
  if b.texts.isEmpty then b.nodes else .text b.texts.reverse.flatten :: b.nodes

def push (b : Builder source) (node : Node) : Builder source :=
  { b with nodes := node :: b.gathered, texts := [] }

/-- Goes into a new section. -/
def enter (b : Builder source) (placed : PlacedTag) : Builder source :=
  let cursor := b.cursor.seek placed.span.stop
  ⟨[], [], ⟨placed, b.gathered, cursor.rest, b.cursor.rest_seek _⟩ :: b.opened, cursor⟩

end Builder

/-- The block from the opening tag to a closing tag. -/
def OpenSection.block {source : Text} (opened : OpenSection source) (closer : PlacedTag)
    (children : List Node) : Node :=
  let opener := opened.placed
  .block (.parse opener.tag.name) (opener.tag.sigil = .inverted) children
    (.mk fun _ => opened.after.takeBytes (closer.span.start - opener.span.stop)) opener.tags
    ⟨opener.span.start, closer.span.stop⟩

/-- A block keeps the slice of the source between its tags. -/
theorem OpenSection.block_eq {source : Text} (opened : OpenSection source) (closer : PlacedTag)
    (children : List Node) :
    opened.block closer children =
      .block (.parse opened.placed.tag.name) (opened.placed.tag.sigil = .inverted) children
        (.mk fun _ => source.slice opened.placed.span.stop closer.span.start) opened.placed.tags
        ⟨opened.placed.span.start, closer.span.stop⟩ := by
  simp [block, opened.after_eq, Text.slice]

namespace Builder

variable {source : Text}

def close (b : Builder source) (placed : PlacedTag) : Except Error (Builder source) :=
  match b.opened with
  | [] => .error (.unbalancedAt source placed.span.start placed.tag.name .unopened)
  | innermost :: outer =>
    let opener := innermost.placed
    if opener.tag.name = placed.tag.name then
      .ok ⟨innermost.block placed b.gathered.reverse :: innermost.before, [], outer, b.cursor⟩
    else
      .error (.unbalancedAt source opener.span.start opener.tag.name (.closedBy placed.tag.name))

def step (b : Builder source) : Event → Except Error (Builder source)
  | .text t => .ok { b with texts := t :: b.texts }
  | .tag placed indent =>
    match placed.tag.sigil with
    | .escaped => .ok (b.push (.interpolation (.parse placed.tag.name) true placed.span))
    | .ampersand | .triple =>
      .ok (b.push (.interpolation (.parse placed.tag.name) false placed.span))
    | .block | .inverted => .ok (b.enter placed)
    | .close => b.close placed
    | .inclusion => .ok (b.push (.inclusion placed.tag.name indent placed.span))
    | .comment => .ok (b.push (.comment placed.tag.name))
    | .delimiters => .ok b

def run (b : Builder source) (events : List Event) : Except Error (Builder source) :=
  events.foldlM step b

theorem run_append (b : Builder source) (front back : List Event) :
    b.run (front ++ back) = b.run front >>= fun built => built.run back := by
  simp [run, List.foldlM_append]

/-- The nodes in order, if every section has been closed. -/
def finish (b : Builder source) : Except Error (List Node) :=
  match b.opened with
  | [] => .ok b.gathered.reverse
  | innermost :: _ =>
    .error (.unbalancedAt source innermost.placed.span.start innermost.placed.tag.name .unclosed)

end Builder
end Stencil
