import Stencil.Engine

/-!
# Evaluation in order

A plain evaluator of templates, for hosts whose pending values never have to wait: depth first and
from left to right, each value awaited where it is looked up, and nothing more done after the first
error. It has no joins, places, turns or cache; it notes what it does in a ledger.
-/

namespace Stencil

/-- Why an evaluation ends without a result. -/
inductive Stop
  | failed (error : Error)
  /-- The bound on nested work has been reached. -/
  | exhausted

/-- What has been done, in this order. -/
structure Ledger where
  calls : List Call
  /-- The pending values awaited. -/
  begun : List PendingId
  /-- The sources that compile, each with its pair. -/
  compiled : List (Text × Tags)

/-- Computations that do one thing after the other and end with the first error. -/
abbrev Direct := ExceptT Stop (StateM Ledger)

namespace Direct

variable (host : Host)

def await (id : PendingId) : Direct Value := do
  modify fun ledger => { ledger with begun := ledger.begun ++ [id] }
  match (host.pending id).result with
  | .ok v => pure v
  | .error error => throw (.failed error)

/-- Notes a call, and tells how often its lambda has been called before. -/
def noteCall (call : Call) : Direct Nat :=
  modifyGet fun ledger =>
    (ledger.calls.countP (·.lambda = call.lambda), { ledger with calls := ledger.calls ++ [call] })

def callInline (id : LambdaId) : Direct Value :=
  return host.inline id (← noteCall (.inline id))

def callBlock (id : LambdaId) (call : BlockCall) : Direct Answer :=
  return host.block id (← noteCall (.block id call.raw call.tags)) call

def compile (source : Text) (tags : Tags) : Direct (List Node) :=
  match Template.compile source tags with
  | .ok nodes => do
    modify fun ledger => { ledger with compiled := ledger.compiled ++ [(source, tags)] }
    pure nodes
  | .error error => throw (.failed error)

def settle : (fuel : Nat) → Value → Direct Value
  | 0, .pending _ => throw .exhausted
  | fuel + 1, .pending id => do settle fuel (← await host id)
  | _, v => pure v

def settleDeep : (fuel : Nat) → Value → Direct Value
  | 0, _ => throw .exhausted
  | fuel + 1, v => do
    match ← settle host (fuel + 1) v with
    | .list items =>
      if items.all Value.isSettled then pure (.list items)
      else return .list (← items.mapM (settleDeep fuel))
    | v => pure v

def descend (fuel : Nat) : List Text → Value → Direct (Option Value)
  | [], v => pure (some v)
  | key :: keys, v =>
    match v.get? key with
    | none => pure none
    | some next => do descend fuel keys (← settle host fuel next)

def lookup (fuel : Nat) (context : Context) : KeyPath → Direct (Option Value)
  | .implicit => pure (some context.view)
  | .keys [] => pure none
  | .keys (key :: keys) =>
    match context.find? key with
    | none => pure none
    | some found => do descend host fuel keys (← settle host fuel found)

/-- A way to evaluate a further source under a pair in a context. -/
abbrev Expand := Text → Tags → Context → Direct Text

/-- What the lambda of a section answers, after the texts that it asks for. -/
def answer (expand : Text → Direct Text) : Answer → Direct Value
  | .value v => pure v
  | .render source next => do answer expand (next (← expand source))

/-- The value that decides about a section: a lambda without arguments is called first. -/
def deciding (fuel : Nat) : Option Value → Direct (Option Value)
  | some (.lambda (.inline id)) => return some (← settle host fuel (← callInline host id))
  | found => pure found

mutual
def node (fuel : Nat) (setting : Setting) (expand : Expand) (context : Context) :
    Node → Direct Text
  | .text t => pure t
  | .comment _ => pure []
  | .interpolation path escape _ => do
    let written (t : Text) : Text := if escape then setting.escape t else t
    match ← lookup host fuel context path with
    | none | some .null | some (.lambda (.block _)) => pure []
    | some (.lambda (.inline id)) =>
      match ← settle host fuel (← callInline host id) with
      | .null => pure []
      | source => return written (← expand source.output setting.tags context)
    | some v => return written (← settleDeep host fuel v).output
  | .inclusion name indent _ =>
    match setting.partials name with
    | none => pure []
    | some source => expand (indent.apply source) setting.tags context
  | .block path inverted children raw tags _ => do
    let value ← deciding host fuel (← lookup host fuel context path)
    if inverted then
      if Render.isShown value then pure [] else siblings fuel setting expand context children
    else if !Render.isShown value then pure []
    else
      match value with
      | some (.list items) =>
        return (← items.mapM fun v => do
          siblings fuel setting expand (context.push (← settle host fuel v)) children).flatten
      | some (.map entries) => siblings fuel setting expand (context.push (.map entries)) children
      | some (.lambda (.block id)) => do
        let reply ← callBlock host id ⟨raw.get, context.view, tags⟩
        let returned ← answer (expand · tags context) reply
        return (← settle host fuel returned).output
      | _ => siblings fuel setting expand context children

/-- The texts of siblings, one after the other. -/
def siblings (fuel : Nat) (setting : Setting) (expand : Expand) (context : Context) :
    List Node → Direct Text
  | [] => pure []
  | n :: ns =>
    return (← node fuel setting expand context n) ++ (← siblings fuel setting expand context ns)
end

/-- The text of a list of nodes, where further sources nest at most `fuel` deep. -/
def text (setting : Setting) : (fuel : Nat) → List Node → Context → Direct Text
  | 0, ns, context => siblings host 0 setting (fun _ _ _ => throw .exhausted) context ns
  | fuel + 1, ns, context =>
    let expand : Expand := fun source tags context => do
      text setting fuel (← compile source tags) context
    siblings host (fuel + 1) setting expand context ns

/-- The text of what a render is asked for under the given defaults. -/
def render (fuel : Nat) (request : Request) (config : Config) : Direct Text :=
  let setting := request.setting config
  match request.template with
  | .string source => do
    let nodes ← compile source setting.tags
    let view ← settle host fuel request.view
    text host setting fuel nodes (.root view)
  | other => throw (.failed (.templateKind other.kind))

end Direct
end Stencil
