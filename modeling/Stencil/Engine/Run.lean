import Stencil.Engine

/-!
# Runs

A run is a list of actions on one engine, each carried out when the one before has gone as far as it
can.
-/

namespace Stencil

inductive Action
  | start (request : Request)
  | release (id : PendingId)
  /-- Compiles a source, under the engine's pair if none is given. -/
  | compile (source : Text) (tags : Option Tags)
  | setTags (tags : Tags)
  | setEscape (escape : Escape)
  | clearCache

namespace Engine

def act (host : Host) (fuel : Nat) (engine : Engine) : Action → Engine
  | .start request => engine.start host fuel request
  | .release id => engine.release fuel id
  | .compile source tags => (engine.fetch source tags).2
  | .setTags tags => engine.setTags tags
  | .setEscape escape => engine.setEscape escape
  | .clearCache => engine.clearCache

def run (host : Host) (fuel : Nat) (engine : Engine) (actions : List Action) : Engine :=
  actions.foldl (act host fuel) engine

@[simp] theorem run_nil (host : Host) (fuel : Nat) (engine : Engine) :
    engine.run host fuel [] = engine := rfl

@[simp] theorem run_cons (host : Host) (fuel : Nat) (engine : Engine) (action : Action)
    (actions : List Action) :
    engine.run host fuel (action :: actions) =
      (engine.act host fuel action).run host fuel actions := rfl

theorem run_append (host : Host) (fuel : Nat) (engine : Engine) (front back : List Action) :
    engine.run host fuel (front ++ back) = (engine.run host fuel front).run host fuel back :=
  List.foldl_append

end Engine
end Stencil
