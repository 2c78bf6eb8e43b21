import Stencil.Plan.Process
import Stencil.Render

/-!
# Engines

An engine holds defaults, a store and the renders that have been started on it, in order. A render
reads the defaults when it starts. After each action the renders that have news are advanced, in the
order of their starts and in rounds, until none has; `fuel` bounds the rounds. A render that has
finished does nothing more.
-/

namespace Stencil

structure Config where
  tags : Tags
  escape : Escape

instance : Inhabited Config where
  default := ⟨default, Escape.html⟩

/-- What a render is asked for. The pair and the escape function default to the engine's. -/
structure Request where
  template : Value
  view : Value
  partials : Partials
  tags : Option Tags
  escape : Option Escape

namespace Request

/-- What holds throughout the render under the given defaults. -/
def setting (request : Request) (config : Config) : Setting where
  tags := request.tags.getD config.tags
  escape := request.escape.getD config.escape
  partials := request.partials

/-- The template is compiled before the view is looked at. -/
def plan (fuel : Nat) (request : Request) (config : Config) : Plan Text :=
  let setting := request.setting config
  match request.template with
  | .string source =>
    .compile source setting.tags fun nodes => do
      let view ← request.view.settle fuel
      Render.text setting fuel nodes (.root view)
  | other => .fail (.templateKind other.kind)

end Request

/-- How far a render has come. -/
inductive Status
  | waiting
  | finished (outcome : Except Error Text)
  | exhausted

/-- A render that has been started. -/
inductive Rendering
  | underway (process : Process Text) (state : Option process.State) (news : Bool)
  | finished (outcome : Except Error Text)
  | exhausted

namespace Rendering

def status : Rendering → Status
  | .underway _ _ _ => .waiting
  | .finished outcome => .finished outcome
  | .exhausted => .exhausted

def hasNews : Rendering → Bool
  | .underway _ _ news => news
  | _ => false

def hear (path : List Nat) : Rendering → Rendering
  | .underway process state _ => .underway process (state.map (process.hear path)) true
  | rendering => rendering

/-- Advances a render that has news; any other stays as it is. -/
def advance (number : Nat) : Rendering → Store → Rendering × Store
  | .underway process state true, store =>
    let advance := process.advance [number] state store
    match advance.reached with
    | .ended outcome => (.finished outcome, advance.store)
    | .exhausted => (.exhausted, advance.store)
    | .waiting state => (.underway process (some state) advance.news, advance.store)
  | rendering, store => (rendering, store)

theorem advance_of_not_hasNews {rendering : Rendering} (h : rendering.hasNews = false)
    (number : Nat) (store : Store) : rendering.advance number store = (rendering, store) := by
  cases rendering with
  | underway process state news =>
    cases news with
    | false => rfl
    | true => simp [hasNews] at h
  | finished | exhausted => rfl

/-- A render that still has news is left at that. -/
def stop (rendering : Rendering) : Rendering :=
  if rendering.hasNews then .exhausted else rendering

end Rendering

structure Engine where
  config : Config
  store : Store
  renders : List Rendering

namespace Engine

def new (config : Config) : Engine :=
  ⟨config, .empty, []⟩

def setTags (engine : Engine) (tags : Tags) : Engine :=
  { engine with config := { engine.config with tags } }

def setEscape (engine : Engine) (escape : Escape) : Engine :=
  { engine with config := { engine.config with escape } }

def clearCache (engine : Engine) : Engine :=
  { engine with store := { engine.store with cache := engine.store.cache.clear } }

/-- The compiled template of a source under a pair, the engine's if none is given. -/
def fetch (engine : Engine) (source : Text) (tags : Option Tags) :
    Except Error CacheEntry × Engine :=
  let (entry, cache) := engine.store.cache.fetch source (tags.getD engine.config.tags)
  (entry, { engine with store := { engine.store with cache } })

/-- Advances the renders that have news, in the order of their starts. -/
def round (number : Nat) : List Rendering → Store → List Rendering × Store
  | [], store => ([], store)
  | rendering :: renderings, store =>
    let (rendering, store) := rendering.advance number store
    let (renderings, store) := round (number + 1) renderings store
    (rendering :: renderings, store)

/-- Goes round until no render has news. -/
def rounds : (fuel : Nat) → List Rendering → Store → List Rendering × Store
  | 0, renderings, store => (renderings.map Rendering.stop, store)
  | fuel + 1, renderings, store =>
    if renderings.any Rendering.hasNews then
      let (renderings, store) := round 0 renderings store
      rounds fuel renderings store
    else (renderings, store)

/-- Takes every render as far as it can go. -/
def proceed (fuel : Nat) (engine : Engine) : Engine :=
  let (renders, store) := rounds fuel engine.renders engine.store
  { engine with renders, store }

/-- Starts a render. -/
def start (host : Host) (fuel : Nat) (engine : Engine) (request : Request) : Engine :=
  let process := (request.plan fuel engine.config).process host
  proceed fuel
    { engine with renders := engine.renders ++ [.underway process none true] }

/-- Passes news on to the render at a place and to its parts there. -/
def tell (place : Place) (renders : List Rendering) : List Rendering :=
  match place.reverse with
  | [] => renders
  | number :: path => renders.modify number (Rendering.hear path)

/-- Releases a manual pending value, which is news to those who wait for it. -/
def release (fuel : Nat) (engine : Engine) (id : PendingId) : Engine :=
  proceed fuel
    { engine with
      store := engine.store.release id
      renders := (engine.store.seatsOf id).places.foldl (fun renders place => tell place renders)
        engine.renders }

def statuses (engine : Engine) : List Status :=
  engine.renders.map Rendering.status

end Engine
end Stencil
