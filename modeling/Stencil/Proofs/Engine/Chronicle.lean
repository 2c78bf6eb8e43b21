import Stencil.Engine.Run
import Stencil.Proofs.Plan.Watchful

/-!
# Chronicles

A run with its journal. A chronicle goes through the actions as an engine does, knows the plan of each
render that is under way, and writes down what the renders do. Leaving the journal out gives the
engine. What a render does stands at places of its own; what the engine does itself stands at no
place.
-/

namespace Stencil

/-- A render of a chronicle. -/
inductive Watched (host : Host) : Type 1
  | underway (plan : Plan Text) (state : Option (plan.process host).State) (news : Bool)
  | finished (outcome : Except Error Text)
  | exhausted

namespace Watched

variable {host : Host}

/-- The render as an engine has it. -/
def rendering : Watched host → Rendering
  | .underway plan state news => .underway (plan.process host) state news
  | .finished outcome => .finished outcome
  | .exhausted => .exhausted

def hasNews (watched : Watched host) : Bool :=
  watched.rendering.hasNews

/-- Whether the render does nothing more. -/
def isOver : Watched host → Bool
  | .underway _ _ _ => false
  | .finished _ | .exhausted => true

def hear (path : List Nat) : Watched host → Watched host
  | .underway plan state _ => .underway plan (state.map ((plan.process host).hear path)) true
  | watched => watched

/-- Advances a render that has news, and tells what it does. -/
def advance (number : Nat) : Watched host → Store → Watched host × Store × Journal
  | .underway plan state true, store =>
    let advance := (plan.process host).advance [number] state store
    let told := (plan.account host).tell [number] state store
    match advance.reached with
    | .ended outcome => (.finished outcome, advance.store, told)
    | .exhausted => (.exhausted, advance.store, told)
    | .waiting state => (.underway plan (some state) advance.news, advance.store, told)
  | watched, store => (watched, store, [])

def stop (watched : Watched host) : Watched host :=
  if watched.hasNews then .exhausted else watched

theorem rendering_hear (path : List Nat) (watched : Watched host) :
    (watched.hear path).rendering = watched.rendering.hear path := by
  cases watched <;> rfl

theorem rendering_advance (number : Nat) (watched : Watched host) (store : Store) :
    watched.rendering.advance number store =
      ((watched.advance number store).1.rendering, (watched.advance number store).2.1) := by
  cases watched with
  | underway plan state news =>
    cases news with
    | false => rfl
    | true =>
      simp only [rendering, Rendering.advance, advance]
      generalize (plan.process host).advance [number] state store = advance
      obtain ⟨reached, news, after⟩ := advance
      cases reached <;> rfl
  | finished | exhausted => rfl

theorem rendering_stop (watched : Watched host) : watched.stop.rendering = watched.rendering.stop := by
  unfold stop Rendering.stop hasNews
  cases watched.rendering.hasNews <;> rfl

theorem hear_of_isOver {watched : Watched host} (h : watched.isOver = true) (path : List Nat) :
    watched.hear path = watched := by
  cases watched with
  | underway => cases h
  | finished | exhausted => rfl

theorem advance_of_isOver {watched : Watched host} (h : watched.isOver = true) (number : Nat)
    (store : Store) : watched.advance number store = (watched, store, []) := by
  cases watched with
  | underway => cases h
  | finished | exhausted => rfl

theorem stop_of_isOver {watched : Watched host} (h : watched.isOver = true) :
    watched.stop = watched := by
  cases watched with
  | underway => cases h
  | finished | exhausted => rfl

end Watched

structure Chronicle (host : Host) : Type 1 where
  config : Config
  store : Store
  renders : List (Watched host)
  journal : Journal

namespace Chronicle

variable {host : Host}

/-- The chronicle without its journal. -/
def engine (chronicle : Chronicle host) : Engine :=
  ⟨chronicle.config, chronicle.store, chronicle.renders.map Watched.rendering⟩

def new (host : Host) (config : Config) : Chronicle host :=
  ⟨config, .empty, [], []⟩

def round (number : Nat) : List (Watched host) → Store → List (Watched host) × Store × Journal
  | [], store => ([], store, [])
  | watched :: renders, store =>
    let (watched, store, told) := watched.advance number store
    let (renders, store, more) := round (number + 1) renders store
    (watched :: renders, store, told ++ more)

def rounds : (fuel : Nat) → List (Watched host) → Store → List (Watched host) × Store × Journal
  | 0, renders, store => (renders.map Watched.stop, store, [])
  | fuel + 1, renders, store =>
    if renders.any Watched.hasNews then
      let (renders, store, told) := round 0 renders store
      let (renders, store, more) := rounds fuel renders store
      (renders, store, told ++ more)
    else (renders, store, [])

def proceed (fuel : Nat) (chronicle : Chronicle host) : Chronicle host :=
  let (renders, store, told) := rounds fuel chronicle.renders chronicle.store
  { chronicle with renders, store, journal := chronicle.journal ++ told }

def tell (place : Place) (renders : List (Watched host)) : List (Watched host) :=
  match place.reverse with
  | [] => renders
  | number :: path => renders.modify number (Watched.hear path)

def act (fuel : Nat) (chronicle : Chronicle host) : Action → Chronicle host
  | .start request =>
    proceed fuel
      { chronicle with
        renders := chronicle.renders ++ [.underway (request.plan fuel chronicle.config) none true] }
  | .release id =>
    proceed fuel
      { chronicle with
        store := chronicle.store.release id
        renders := (chronicle.store.seatsOf id).places.foldl
          (fun renders place => tell place renders) chronicle.renders }
  | .compile source tags =>
    let tags := tags.getD chronicle.config.tags
    { chronicle with
      store := { chronicle.store with cache := (chronicle.store.cache.fetch source tags).2 }
      journal := chronicle.journal ++ [([], .compiles source tags)] }
  | .setTags tags => { chronicle with config := { chronicle.config with tags } }
  | .setEscape escape => { chronicle with config := { chronicle.config with escape } }
  | .clearCache =>
    { chronicle with store := { chronicle.store with cache := chronicle.store.cache.clear } }

def run (fuel : Nat) (chronicle : Chronicle host) (actions : List Action) : Chronicle host :=
  actions.foldl (act fuel) chronicle

theorem run_append (fuel : Nat) (chronicle : Chronicle host) (front back : List Action) :
    chronicle.run fuel (front ++ back) = (chronicle.run fuel front).run fuel back :=
  List.foldl_append

theorem round_eq (number : Nat) (renders : List (Watched host)) (store : Store) :
    Engine.round number (renders.map Watched.rendering) store =
      ((round number renders store).1.map Watched.rendering, (round number renders store).2.1) := by
  induction renders generalizing number store with
  | nil => rfl
  | cons watched renders ih =>
    simp [Engine.round, round, Watched.rendering_advance, ih]

theorem rounds_eq (fuel : Nat) (renders : List (Watched host)) (store : Store) :
    Engine.rounds fuel (renders.map Watched.rendering) store =
      ((rounds fuel renders store).1.map Watched.rendering, (rounds fuel renders store).2.1) := by
  induction fuel generalizing renders store with
  | zero => simp [Engine.rounds, rounds, Watched.rendering_stop, Function.comp_def]
  | succ fuel ih =>
    have hany : (renders.map Watched.rendering).any Rendering.hasNews =
        renders.any Watched.hasNews := by
      rw [List.any_map]
      rfl
    simp only [Engine.rounds, rounds, hany, round_eq]
    split
    · exact ih _ _
    · rfl

theorem engine_proceed (fuel : Nat) (chronicle : Chronicle host) :
    (chronicle.proceed fuel).engine = chronicle.engine.proceed fuel := by
  simp [proceed, Engine.proceed, engine, rounds_eq]

theorem map_tell (place : Place) (renders : List (Watched host)) :
    (tell place renders).map Watched.rendering =
      Engine.tell place (renders.map Watched.rendering) := by
  unfold tell Engine.tell
  cases place.reverse with
  | nil => rfl
  | cons number path =>
    dsimp only
    induction renders generalizing number with
    | nil => simp
    | cons watched renders ih =>
      cases number with
      | zero => simp [Watched.rendering_hear]
      | succ number => simpa using ih number

theorem map_foldl_tell (places : List Place) (renders : List (Watched host)) :
    (places.foldl (fun renders place => tell place renders) renders).map Watched.rendering =
      places.foldl (fun renders place => Engine.tell place renders)
        (renders.map Watched.rendering) := by
  induction places generalizing renders with
  | nil => rfl
  | cons place places ih => simp [ih, map_tell]

theorem engine_act (fuel : Nat) (chronicle : Chronicle host) (action : Action) :
    (chronicle.act fuel action).engine = chronicle.engine.act host fuel action := by
  cases action with
  | start request =>
    rw [act, engine_proceed]
    simp [Engine.act, Engine.start, engine, Watched.rendering]
  | release id =>
    rw [act, engine_proceed]
    simp [Engine.act, Engine.release, engine, map_foldl_tell]
  | compile | setTags | setEscape | clearCache => rfl

/-- A chronicle keeps to the run that it is about. -/
theorem engine_run (fuel : Nat) (chronicle : Chronicle host) (actions : List Action) :
    (chronicle.run fuel actions).engine = chronicle.engine.run host fuel actions := by
  induction actions generalizing chronicle with
  | nil => rfl
  | cons action actions ih =>
    rw [Engine.run_cons, ← engine_act]
    exact ih _

end Chronicle

/-- What is done in a run on a new engine, in its order. -/
def Engine.journal (host : Host) (fuel : Nat) (config : Config) (actions : List Action) : Journal :=
  ((Chronicle.new host config).run fuel actions).journal

end Stencil
