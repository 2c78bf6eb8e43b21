import Stencil.Context
import Stencil.Escape
import Stencil.Partials

/-!
# Rendering

Nodes become plans for text. Siblings and the items of a list are members of one join, so the text
comes out in document order whatever waits. Partials and lambdas bring further sources, which are
compiled and rendered where they are met; how deep such sources nest is bounded by `fuel`.
-/

namespace Stencil

/-- What holds throughout one render: the pair for partials and for lambdas in a tag's place, the
escape function and the partials. -/
structure Setting where
  tags : Tags
  escape : Escape
  partials : Partials

namespace Render

/-- A way to render a further source under a pair in a context. -/
abbrev Expand := Text → Tags → Context → Plan Text

/-- What the lambda of a section answers, after the texts that it asks to render first. -/
def answer (expand : Text → Plan Text) : Answer → Plan Value
  | .value v => .done v
  | .render source next => (expand source).bind fun t => answer expand (next t)

/-- The value of an answer. One that asks for texts is a computation of its own. -/
def answered (expand : Text → Plan Text) : Answer → Plan Value
  | .value v => .done v
  | reply => .inner (answer expand reply) .done

/-- The text in place of an interpolation, before it is escaped; none where nothing is shown. -/
def interpolated (fuel : Nat) (setting : Setting) (expand : Expand) (context : Context) :
    Option Value → Plan (Option Text)
  | none | some .null => pure none
  | some (.lambda (.inline id)) => do
    let returned : Value ← .callInline id .done
    match ← returned.settle fuel with
    | .null => pure none
    | source => some <$> expand source.output setting.tags context
  | some (.lambda (.block _)) => pure none
  | some v => do return some (← v.settleDeep fuel).output

/-- The value that decides about a section: a lambda without arguments is called first. -/
def deciding (fuel : Nat) : Option Value → Plan (Option Value)
  | some (.lambda (.inline id)) => do
    let returned : Value ← .callInline id .done
    some <$> returned.settle fuel
  | found => pure found

def isShown : Option Value → Bool
  | none => false
  | some v => v.isTruthy

/-- The text of a section that is not inverted, given its children's text in a context. -/
def shown (fuel : Nat) (expand : Expand) (children : Context → Plan Text) (raw : Thunk Text)
    (tags : Tags) (context : Context) : Value → Plan Text
  | .list items => do
    let item (v : Value) : Plan Text := do children (context.push (← v.settle fuel))
    return (← Plan.each items item).flatten
  | .map entries => children (context.push (.map entries))
  | .lambda (.block id) => do
    let reply : Answer ← .callBlock id ⟨raw.get, context.view, tags⟩ .done
    let returned ← answered (expand · tags context) reply
    return (← returned.settle fuel).output
  | _ => children context

/-- The texts of siblings in a context, one after the other. -/
def together (siblings : List (Context → Plan Text)) (context : Context) : Plan Text :=
  return (← Plan.each siblings fun plan => plan context).flatten

mutual
def node (fuel : Nat) (setting : Setting) (expand : Expand) : Node → Context → Plan Text
  | .text t, _ => pure t
  | .comment _, _ => pure []
  | .interpolation path escape _, context => do
    match ← interpolated fuel setting expand context (← context.lookup fuel path) with
    | none => pure []
    | some t => pure (if escape then setting.escape t else t)
  | .inclusion name indent _, context =>
    match setting.partials name with
    | none => pure []
    | some source => expand (indent.apply source) setting.tags context
  | .block path inverted children raw tags _, context => do
    let childText := together (nodes fuel setting expand children)
    let value ← deciding fuel (← context.lookup fuel path)
    if inverted then
      if isShown value then pure [] else childText context
    else
      match value with
      | some v => if v.isTruthy then shown fuel expand childText raw tags context v else pure []
      | none => pure []

/-- How the texts of siblings are planned in a context. -/
def nodes (fuel : Nat) (setting : Setting) (expand : Expand) :
    List Node → List (Context → Plan Text)
  | [] => []
  | n :: ns => node fuel setting expand n :: nodes fuel setting expand ns
end

/-- The text of siblings. -/
def siblings (fuel : Nat) (setting : Setting) (expand : Expand) (ns : List Node) :
    Context → Plan Text :=
  together (nodes fuel setting expand ns)

/-- The text of a list of nodes, where further sources nest at most `fuel` deep. -/
def text (setting : Setting) : (fuel : Nat) → List Node → Context → Plan Text
  | 0, ns, context => siblings 0 setting (fun _ _ _ => .exhausted) ns context
  | fuel + 1, ns, context =>
    let expand : Expand := fun source tags context =>
      .compile source tags fun nested => text setting fuel nested context
    siblings (fuel + 1) setting expand ns context

end Render
end Stencil
