import Stencil.Plan.Process
import Stencil.Proofs.Process.Bind
import Stencil.Proofs.Process.Queue

/-!
# Plans are carried out lawfully

With lambdas that answer the same at each call, the process of a plan keeps the law of processes,
whatever joins it is made of.
-/

namespace Stencil

variable {α β : Type} {host : Host}

theorem Process.join_of_le {count : Nat} (h : count ≤ sweepLimit)
    (members : Fin count → Process β) : join members = sweep members :=
  if_pos h

theorem Process.join_of_lt {count : Nat} (h : sweepLimit < count)
    (members : Fin count → Process β) : join members = queue members :=
  if_neg (Nat.not_le.2 h)

/-- A join keeps the law of its members, whether it is swept over or they queue. -/
def Process.Lawful.join {count : Nat} {plans : Fin count → Plan β}
    {members : Fin count → Process β} (laws : ∀ i, Lawful host (plans i) (members i)) :
    Lawful host (.join count plans .done) (Process.join members) :=
  if h : count ≤ Process.sweepLimit then
    Process.join_of_le h members ▸ .sweep laws
  else
    Process.join_of_lt (Nat.not_le.1 h) members ▸ .queue laws

section Join
open Process
variable {count : Nat} {plans : Fin count → Plan β} {members : Fin count → Process β}

theorem Process.le_sweepLimit (h : ¬ sweepLimit < count) : count ≤ sweepLimit :=
  Nat.not_lt.1 h

theorem Process.queue_eq_join (h : sweepLimit < count) (members : Fin count → Process β) :
    queue members = join members :=
  (join_of_lt h members).symm

theorem Process.sweep_eq_join (h : ¬ sweepLimit < count) (members : Fin count → Process β) :
    sweep members = join members :=
  (join_of_le (le_sweepLimit h) members).symm

theorem Process.Lawful.queue_heq_join (h : sweepLimit < count)
    (laws : ∀ i, Lawful host (plans i) (members i)) : HEq (Lawful.queue laws) (Lawful.join laws) := by
  rw [Lawful.join, dif_neg (Nat.not_le.2 h)]
  exact (eqRec_heq _ _).symm

theorem Process.Lawful.sweep_heq_join (h : ¬ sweepLimit < count)
    (laws : ∀ i, Lawful host (plans i) (members i)) : HEq (Lawful.sweep laws) (Lawful.join laws) := by
  rw [Lawful.join, dif_pos (le_sweepLimit h)]
  exact (eqRec_heq _ _).symm

end Join

/-- By recursion over the plan: it is its first step, followed by the rest. -/
def Plan.lawful (hp : host.Pure) : {α : Type} → (plan : Plan α) →
    Process.Lawful host plan (plan.process host)
  | _, .done result => .done result
  | _, .fail error => .fail error
  | _, .exhausted => .exhausted
  | _, .await id next => (Process.Lawful.value host id).bind fun v => (next v).lawful hp
  | _, .callInline id next => (Process.Lawful.callInline hp id).bind fun v => (next v).lawful hp
  | _, .callBlock id call next =>
    (Process.Lawful.callBlock hp id call).bind fun reply => (next reply).lawful hp
  | _, .compile source tags next =>
    (Process.Lawful.compile source tags).bind fun nodes => (next nodes).lawful hp
  | _, .join _ members next =>
    (Process.Lawful.join fun i => (members i).lawful hp).bind
      fun results => (next results).lawful hp
  | _, .inner plan next =>
    (plan.lawful hp).announced.bind fun result => (next result).lawful hp

end Stencil
