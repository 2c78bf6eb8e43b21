import Stencil.Engine
import Stencil.Proofs.Plan.Prospect

/-!
# Where faults come from

A render of a text never fails of its own accord: each fault that it meets is that of a pending value
or of a source that does not compile.
-/

namespace Stencil
namespace Plan

variable {α β : Type} {host : Host} {ready : PendingId → Bool}

/-- No part of a plan fails of its own accord. -/
def Unfailing : {α : Type} → Plan α → Prop
  | _, .done _ | _, .exhausted => True
  | _, .fail _ => False
  | _, .await _ next => ∀ v, (next v).Unfailing
  | _, .callInline _ next => ∀ v, (next v).Unfailing
  | _, .callBlock _ _ next => ∀ reply, (next reply).Unfailing
  | _, .compile _ _ next => ∀ nodes, (next nodes).Unfailing
  | _, .join _ members next =>
    (∀ i, (members i).Unfailing) ∧ ∀ results, (next results).Unfailing
  | _, .inner plan next => plan.Unfailing ∧ ∀ result, (next result).Unfailing

theorem Unfailing.bind {plan : Plan α} {f : α → Plan β} (h : plan.Unfailing)
    (hf : ∀ a, (f a).Unfailing) : (plan.bind f).Unfailing := by
  induction plan with
  | done result => exact hf result
  | fail => exact h.elim
  | exhausted => trivial
  | await id next ih => exact fun v => ih v (h v) hf
  | callInline id next ih => exact fun v => ih v (h v) hf
  | callBlock id call next ih => exact fun reply => ih reply (h reply) hf
  | compile source tags next ih => exact fun nodes => ih nodes (h nodes) hf
  | join count members next _ ih => exact ⟨h.1, fun results => ih results (h.2 results) hf⟩
  | inner plan next _ ih => exact ⟨h.1, fun result => ih result (h.2 result) hf⟩

theorem unfailing_each {ι : Type*} {items : List ι} {f : ι → Plan β}
    (h : ∀ item ∈ items, (f item).Unfailing) : (each items f).Unfailing :=
  ⟨fun i => h _ (by simp), fun _ => trivial⟩

/-- Every fault of a plan that does not fail of its own accord has a source. -/
theorem Faults.of_unfailing {plan : Plan α} {error : Error} (h : plan.Unfailing)
    (hf : plan.Faults host ready error) :
    (∃ id, (host.pending id).result = .error error) ∨
      ∃ source tags, plan.Reads host ready source tags ∧
        Template.compile source tags = .error error := by
  induction plan with
  | done | exhausted => exact hf.elim
  | fail => exact h.elim
  | await id next ih =>
    obtain ⟨hr, hf | ⟨v, hv, hf⟩⟩ := hf
    · exact .inl ⟨id, hf⟩
    · exact (ih v (h v) hf).imp_right fun ⟨s, t, hs, hc⟩ => ⟨s, t, ⟨hr, v, hv, hs⟩, hc⟩
  | callInline id next ih => exact ih _ (h _) hf
  | callBlock id call next ih => exact ih _ (h _) hf
  | compile source tags next ih =>
    rcases hf with hf | ⟨nodes, hn, hf⟩
    · exact .inr ⟨source, tags, .inl ⟨rfl, rfl⟩, hf⟩
    · exact (ih nodes (h nodes) hf).imp_right fun ⟨s, t, hs, hc⟩ => ⟨s, t, .inr ⟨nodes, hn, hs⟩, hc⟩
  | join count members next ihm ih =>
    rcases hf with ⟨i, hf⟩ | ⟨results, hm, hf⟩
    · exact (ihm i (h.1 i) hf).imp_right fun ⟨s, t, hs, hc⟩ => ⟨s, t, .inl ⟨i, hs⟩, hc⟩
    · exact (ih results (h.2 results) hf).imp_right fun ⟨s, t, hs, hc⟩ =>
        ⟨s, t, .inr ⟨results, hm, hs⟩, hc⟩
  | inner plan next ihp ih =>
    rcases hf with hf | ⟨result, hp, hf⟩
    · exact (ihp h.1 hf).imp_right fun ⟨s, t, hs, hc⟩ => ⟨s, t, .inl hs, hc⟩
    · exact (ih result (h.2 result) hf).imp_right fun ⟨s, t, hs, hc⟩ =>
        ⟨s, t, .inr ⟨result, hp, hs⟩, hc⟩

end Plan

open Plan

theorem Value.unfailing_settle (fuel : Nat) (v : Value) : (v.settle fuel).Unfailing := by
  induction fuel generalizing v with
  | zero => cases v <;> trivial
  | succ fuel ih =>
    cases v with
    | pending id => exact fun v => ih v
    | _ => trivial

theorem Value.unfailing_settleDeep (fuel : Nat) (v : Value) : (v.settleDeep fuel).Unfailing := by
  induction fuel generalizing v with
  | zero => trivial
  | succ fuel ih =>
    refine (unfailing_settle (fuel + 1) v).bind fun settled => ?_
    split
    · split
      · trivial
      · exact (unfailing_each fun item _ => ih item).bind fun _ => trivial
    · trivial

theorem Context.unfailing_descend (fuel : Nat) (keys : List Text) (v : Value) :
    (descend fuel keys v).Unfailing := by
  induction keys generalizing v with
  | nil => trivial
  | cons key keys ih =>
    rw [descend]
    split
    · trivial
    · exact (Value.unfailing_settle fuel _).bind ih

theorem Context.unfailing_lookup (fuel : Nat) (context : Context) (path : KeyPath) :
    (context.lookup fuel path).Unfailing := by
  rcases path with _ | _ | ⟨key, keys⟩
  · trivial
  · trivial
  · rw [lookup]
    split
    · trivial
    · exact (Value.unfailing_settle fuel _).bind (unfailing_descend fuel keys)

namespace Render

variable {fuel : Nat} {setting : Setting} {expand : Expand} {context : Context}

theorem unfailing_answer {expand : Text → Plan Text} (h : ∀ source, (expand source).Unfailing)
    (reply : Answer) : (answer expand reply).Unfailing := by
  induction reply with
  | value v => trivial
  | render source next ih => exact (h source).bind ih

theorem unfailing_answered {expand : Text → Plan Text} (h : ∀ source, (expand source).Unfailing)
    (reply : Answer) : (answered expand reply).Unfailing := by
  cases reply with
  | value v => trivial
  | render source next => exact ⟨unfailing_answer h _, fun _ => trivial⟩

theorem unfailing_interpolated (h : ∀ source tags context, (expand source tags context).Unfailing)
    (found : Option Value) : (interpolated fuel setting expand context found).Unfailing := by
  unfold interpolated
  split
  · trivial
  · trivial
  · refine fun returned => (Value.unfailing_settle fuel returned).bind fun settled => ?_
    split
    · trivial
    · exact (h _ _ _).bind fun _ => trivial
  · trivial
  · exact (Value.unfailing_settleDeep fuel _).bind fun _ => trivial

theorem unfailing_deciding (found : Option Value) : (deciding fuel found).Unfailing := by
  unfold deciding
  split
  · exact fun returned => (Value.unfailing_settle fuel returned).bind fun _ => trivial
  · trivial

theorem unfailing_shown {children : Context → Plan Text} {raw : Thunk Text} {tags : Tags}
    (h : ∀ source tags context, (expand source tags context).Unfailing)
    (hc : ∀ context, (children context).Unfailing) (v : Value) :
    (shown fuel expand children raw tags context v).Unfailing := by
  unfold shown
  split
  · refine (unfailing_each fun item _ => ?_).bind fun _ => trivial
    exact (Value.unfailing_settle fuel item).bind fun _ => hc _
  · exact hc _
  · refine fun reply => (unfailing_answered (fun source => h source tags context) reply).bind ?_
    exact fun returned => (Value.unfailing_settle fuel returned).bind fun _ => trivial
  · exact hc _

theorem unfailing_together {siblings : List (Context → Plan Text)}
    (h : ∀ plan ∈ siblings, ∀ context, (plan context).Unfailing) (context : Context) :
    (together siblings context).Unfailing :=
  (unfailing_each fun plan hm => h plan hm context).bind fun _ => trivial

mutual
theorem unfailing_node (h : ∀ source tags context, (expand source tags context).Unfailing) :
    (n : Node) → (context : Context) → (node fuel setting expand n context).Unfailing
  | .text _, _ | .comment _, _ => trivial
  | .interpolation path _ _, context => by
    refine (Context.unfailing_lookup fuel context path).bind fun found =>
      (unfailing_interpolated h found).bind fun shown => ?_
    cases shown <;> trivial
  | .inclusion name _ _, context => by
    rw [node]
    split
    · trivial
    · exact h _ _ _
  | .block path inverted children raw tags _, context => by
    have hchildren : ∀ context,
        (together (nodes fuel setting expand children) context).Unfailing :=
      unfailing_together (unfailing_nodes h children)
    refine (Context.unfailing_lookup fuel context path).bind fun found =>
      (unfailing_deciding found).bind fun value => ?_
    split
    · split
      · trivial
      · exact hchildren context
    · split
      · split
        · exact unfailing_shown h hchildren _
        · trivial
      · trivial

theorem unfailing_nodes (h : ∀ source tags context, (expand source tags context).Unfailing) :
    (ns : List Node) → ∀ plan ∈ nodes fuel setting expand ns, ∀ context, (plan context).Unfailing
  | [], _, hm => by cases hm
  | n :: ns, plan, hm => by
    rcases List.mem_cons.1 hm with rfl | hm
    · exact unfailing_node h n
    · exact unfailing_nodes h ns plan hm
end

theorem unfailing_text (setting : Setting) (fuel : Nat) (ns : List Node) (context : Context) :
    (text setting fuel ns context).Unfailing := by
  induction fuel generalizing ns context with
  | zero =>
    refine unfailing_together (unfailing_nodes ?_ ns) context
    exact fun _ _ _ => trivial
  | succ fuel ih =>
    refine unfailing_together (unfailing_nodes ?_ ns) context
    exact fun _ _ _ nested => ih nested _

end Render

theorem Request.unfailing_plan {request : Request} {source : Text}
    (h : request.template = .string source) (fuel : Nat) (config : Config) :
    (request.plan fuel config).Unfailing := by
  rw [plan, h]
  exact fun nodes => (Value.unfailing_settle fuel _).bind fun _ => Render.unfailing_text _ _ _ _

end Stencil
