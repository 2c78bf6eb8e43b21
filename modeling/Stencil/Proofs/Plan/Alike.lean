import Stencil.Proofs.Plan.Watchful
import Stencil.Proofs.Process.TandemJoin

/-!
# Plans that are alike

Two plans without calls that ask for the same pending values and compile the same sources, and differ
in nothing but what would follow sources that are not known. They are carried out in tandem.
-/

namespace Stencil
namespace Plan

variable {α β : Type} {host : Host} {known : Text → Tags → Prop} {ids : PendingId → Prop}

/-- The plans are the same as far as only known sources are compiled, and come for such values only. -/
inductive Alike (host : Host) (known : Text → Tags → Prop) (ids : PendingId → Prop) :
    {α : Type} → Plan α → Plan α → Prop
  | done {α : Type} (result : α) : Alike host known ids (.done result) (.done result)
  | fail {α : Type} (error : Error) : Alike host known ids (.fail error : Plan α) (.fail error)
  | exhausted {α : Type} : Alike host known ids (.exhausted : Plan α) .exhausted
  | await {α : Type} {id : PendingId} {next more : Value → Plan α} (hid : ids id)
    (h : ∀ v, (host.pending id).result = .ok v → Alike host known ids (next v) (more v)) :
    Alike host known ids (.await id next) (.await id more)
  | compile {α : Type} {source : Text} {tags : Tags} {next more : List Node → Plan α}
    (h : known source tags → ∀ nodes, Template.compile source tags = .ok nodes →
      Alike host known ids (next nodes) (more nodes)) :
    Alike host known ids (.compile source tags next) (.compile source tags more)
  | join {α β : Type} {count : Nat} {members others : Fin count → Plan β}
    {next more : List β → Plan α} (hm : ∀ i, Alike host known ids (members i) (others i))
    (h : ∀ results, Alike host known ids (next results) (more results)) :
    Alike host known ids (.join count members next) (.join count others more)

namespace Alike

theorem bind {plan other : Plan α} {f g : α → Plan β} (h : Alike host known ids plan other)
    (hfg : ∀ a, Alike host known ids (f a) (g a)) :
    Alike host known ids (plan.bind f) (other.bind g) := by
  induction h with
  | done result => exact hfg result
  | fail error => exact .fail error
  | exhausted => exact .exhausted
  | await hid _ ih => exact .await hid fun v hv => ih v hv hfg
  | compile _ ih => exact .compile fun hk nodes hn => ih hk nodes hn hfg
  | join hm _ _ ih => exact .join hm fun results => ih results hfg

theorem each {ι : Type*} {items : List ι} {f g : ι → Plan β}
    (h : ∀ item ∈ items, Alike host known ids (f item) (g item)) :
    Alike host known ids (Plan.each items f) (Plan.each items g) :=
  .join (fun _ => h _ (by simp)) fun results => .done results

/-- By induction on the plans: their first steps are taken in tandem, and so is the rest. -/
theorem inTandem {plan other : Plan α} (h : Alike host known ids plan other) :
    Process.InTandem known ids Eq (plan.account host) (other.account host) := by
  induction h with
  | done | fail => exact Process.inTandem_act (fun _ _ _ _ _ => rfl) fun _ => List.not_mem_nil
  | exhausted => exact Process.inTandem_exhausted
  | @await _ id _ _ hid _ ih =>
    refine (Process.inTandem_value hid).bind (Process.blind_value id) fun v w hvw => ?_
    obtain ⟨rfl, hv⟩ := hvw
    exact ih v hv
  | @compile _ source tags _ _ _ ih =>
    refine (Process.inTandem_compile source tags).bind (Process.blind_compile source tags)
      fun nodes again hn => ?_
    obtain ⟨rfl, hk, hn⟩ := hn
    exact ih hk nodes hn
  | @join _ _ _ members _ _ _ _ _ ihm ih =>
    refine (Process.inTandem_join (fun i => (members i).blind host) ihm).bind
      (Process.Blind.join fun i => (members i).blind host) fun results again hr => ?_
    subst hr
    exact ih results

end Alike
end Plan
end Stencil
