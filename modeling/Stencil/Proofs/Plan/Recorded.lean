import Stencil.Proofs.Plan.Watchful
import Stencil.Proofs.Process.RecordedJoin

/-!
# Plans are carried out by the record

The account of the process that carries out a plan tells all that it does: taken together, up to the
end, the deeds of a run of the plan.
-/

namespace Stencil
namespace Plan

open Process

/-- By recursion over the plan: it is its first step, followed by the rest. -/
def recorded (host : Host) : {α : Type} → (plan : Plan α) → Recorded host plan (plan.account host)
  | _, .done result => .done result
  | _, .fail error => .fail error
  | _, .exhausted => .exhausted
  | _, .await id next => (Recorded.value host id).bind fun v => (next v).recorded host
  | _, .callInline id next => (Recorded.callInline id).bind fun v => (next v).recorded host
  | _, .callBlock id call next =>
    (Recorded.callBlock id call).bind fun reply => (next reply).recorded host
  | _, .compile source tags next =>
    (Recorded.compile source tags).bind fun nodes => (next nodes).recorded host
  | _, .join _ members next =>
    (Recorded.join fun i => (members i).recorded host).bind fun results => (next results).recorded host
  | _, .inner plan next =>
    (plan.recorded host).announced.bind fun result => (next result).recorded host

end Plan
end Stencil
