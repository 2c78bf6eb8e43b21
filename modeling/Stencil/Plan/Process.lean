import Stencil.Plan.Basic
import Stencil.Process.Queue

/-!
# Carrying out a plan

The process that carries out a plan: it calls and compiles at once, waits for pending values, and
joins the processes of members.
-/

namespace Stencil
namespace Plan

variable {α : Type}

def process (host : Host) : {α : Type} → Plan α → Process α
  | _, .done result => .ended (.ok result)
  | _, .fail error => .ended (.error error)
  | _, .exhausted => .exhausted
  | _, .await id next => (Process.value host id).bind fun v => (next v).process host
  | _, .callInline id next =>
    (Process.act fun store =>
      (.ok (host.inline id (store.callCount (.inline id))), store.record (.inline id))).bind
      fun v => (next v).process host
  | _, .callBlock id call next =>
    (Process.act fun store =>
      (.ok (host.block id (store.callCount (.block id)) call),
        store.record (.block id call.raw call.tags))).bind
      fun reply => (next reply).process host
  | _, .compile source tags next =>
    (Process.act fun store =>
      let (entry, cache) := store.cache.fetch source tags
      (entry.map CacheEntry.nodes, { store with cache })).bind
      fun nodes => (next nodes).process host
  | _, .join _ members next =>
    (Process.join fun i => (members i).process host).bind fun results => (next results).process host
  | _, .inner plan next =>
    (plan.process host).announced.bind fun result => (next result).process host

/-- Carries out a plan as far as it goes in one advance. -/
def advance (host : Host) (plan : Plan α) (place : Place) (store : Store) :
    Advance (plan.process host).State α :=
  (plan.process host).advance place none store

@[simp] theorem advance_done (host : Host) (result : α) (place : Place) (store : Store) :
    (Plan.done result).advance host place store = ⟨.ended (.ok result), false, store⟩ := rfl

@[simp] theorem advance_fail (host : Host) (error : Error) (place : Place) (store : Store) :
    (Plan.fail error : Plan α).advance host place store = ⟨.ended (.error error), false, store⟩ :=
  rfl

end Plan
end Stencil
