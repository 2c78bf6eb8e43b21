import Stencil.Plan.Process
import Stencil.Proofs.Process.WatchfulJoin

/-!
# Plans are carried out watchfully

The account of the process that carries out a plan, and the law it keeps, whatever the lambdas
answer.
-/

namespace Stencil
namespace Plan

open Process

/-- What the process of a plan does, told step by step. -/
def account (host : Host) : {α : Type} → (plan : Plan α) → Account (plan.process host)
  | _, .done _ => .act _ []
  | _, .fail _ => .act _ []
  | _, .exhausted => .exhausted
  | _, .await id next => (Account.value host id).bind fun v => (next v).account host
  | _, .callInline id next =>
    (Account.act _ [.calls (.inline id)]).bind fun v => (next v).account host
  | _, .callBlock id call next =>
    (Account.act _ [.calls (.block id call.raw call.tags)]).bind
      fun reply => (next reply).account host
  | _, .compile source tags next =>
    (Account.act _ [.compiles source tags]).bind fun nodes => (next nodes).account host
  | _, .join _ members next =>
    (Account.join fun i => (members i).account host).bind fun results => (next results).account host
  | _, .inner plan next =>
    (plan.account host).announced.bind fun result => (next result).account host

/-- By recursion over the plan: it is its first step, followed by the rest. -/
def watchful (host : Host) : {α : Type} → (plan : Plan α) → Watchful host plan (plan.account host)
  | _, .done result => .done result
  | _, .fail error => .fail error
  | _, .exhausted => .exhausted
  | _, .await id next => (Watchful.value host id).bind fun v => (next v).watchful host
  | _, .callInline id next => (Watchful.callInline id).bind fun v => (next v).watchful host
  | _, .callBlock id call next =>
    (Watchful.callBlock id call).bind fun reply => (next reply).watchful host
  | _, .compile source tags next =>
    (Watchful.compile source tags).bind fun nodes => (next nodes).watchful host
  | _, .join _ members next =>
    (Watchful.join fun i => (members i).watchful host).bind fun results => (next results).watchful host
  | _, .inner plan next =>
    (plan.watchful host).announced.bind fun result => (next result).watchful host

end Plan
end Stencil
