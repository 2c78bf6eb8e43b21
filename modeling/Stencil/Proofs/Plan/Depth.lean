import Stencil.Proofs.Plan.Causes
import Stencil.Proofs.Plan.Confined
import Stencil.Proofs.Template.Within
import Stencil.Proofs.Value.Finite

/-!
# How deep a render goes

A render of data with so many layers asks for pending values of the data only, and needs a bound on
nested work that exceeds the layers by as much as sources nest. How deep sources nest is counted by
the partial tags alone: data brings no further sources.
-/

namespace Stencil

open Plan (Confined)

variable {host : Host} {ids : PendingId → Prop} {n fuel : Nat}

namespace Value

variable {v w : Value}

theorem Shallow.settle (h : Shallow host ids n v) (hw : (v.settle fuel).Gives host w) :
    Shallow host ids n w := by
  induction fuel generalizing v with
  | zero =>
    cases v with
    | pending => exact hw.elim
    | _ =>
      cases hw
      exact h
  | succ fuel ih =>
    cases v with
    | pending id =>
      obtain ⟨next, hn, hw⟩ := hw
      exact ih (h.of_mem_parts (mem_parts_pending.2 hn)) hw
    | _ =>
      cases hw
      exact h

theorem Shallow.confined_settle (h : Shallow host ids n v) (hle : n ≤ fuel) :
    (v.settle fuel).Confined host ids n := by
  induction h generalizing fuel with
  | @intro n v data own narrow _ ih =>
    obtain ⟨fuel, rfl⟩ : ∃ k, fuel = k + 1 := ⟨fuel - 1, by omega⟩
    cases v with
    | pending id =>
      exact ⟨own id rfl, n, by omega, fun v hv => ih v (mem_parts_pending.2 hv) (by omega)⟩
    | _ => trivial

/-- What there is to do in order to settle all of a value depends on its layers alone. -/
theorem exists_confined_settleDeep (host : Host) (ids : PendingId → Prop) (n : Nat) :
    ∃ weight, ∀ (v : Value) fuel, v.Shallow host ids n → n ≤ fuel →
      (v.settleDeep fuel).Confined host ids weight := by
  induction n with
  | zero => exact ⟨0, nofun⟩
  | succ n ih =>
    obtain ⟨weight, hw⟩ := ih
    refine ⟨n + 1 + n * (weight + 1), fun v fuel h hle => ?_⟩
    obtain ⟨fuel, rfl⟩ : ∃ k, fuel = k + 1 := ⟨fuel - 1, by omega⟩
    refine (h.confined_settle hle).bind fun settled hs => ?_
    split
    · rename_i items
      split
      · trivial
      · cases h.settle hs with
        | intro _ _ narrow parts =>
          have hitems : (Plan.each items (settleDeep fuel)).Confined host ids
              (items.length * (weight + 1)) :=
            .each fun item hi => hw item fuel (parts item hi) (by omega)
          exact hitems.bind_done.mono (Nat.mul_le_mul_right _ narrow)
    · trivial

end Value

namespace Context

variable {context : Context} {v start : Value}

/-- The views of a context are data in so many layers. -/
def Shallow (host : Host) (ids : PendingId → Prop) (n : Nat) (context : Context) : Prop :=
  ∀ v ∈ context.views, v.Shallow host ids n

theorem Shallow.push (h : context.Shallow host ids n) (hv : v.Shallow host ids n) :
    (context.push v).Shallow host ids n := by
  rw [Shallow, views_push, List.forall_mem_cons]
  exact ⟨hv, h⟩

theorem shallow_root (hv : v.Shallow host ids n) : (root v).Shallow host ids n :=
  fun _ hm => List.mem_singleton.1 hm ▸ hv

theorem Shallow.descend {keys : List Text} (h : start.Shallow host ids n)
    (hv : (Context.descend fuel keys start).Gives host (some v)) : v.Shallow host ids n := by
  induction keys generalizing start with
  | nil =>
    cases hv
    exact h
  | cons key keys ih =>
    rw [Context.descend] at hv
    split at hv
    · cases hv
    · rename_i next hn
      obtain ⟨settled, hs, hv⟩ := Plan.gives_bind.1 hv
      exact ih ((h.of_mem_parts (Value.mem_parts_of_get? hn)).settle hs) hv

theorem Shallow.find? (h : context.Shallow host ids n) {key : Text}
    (hv : context.find? key = some v) : v.Shallow host ids n := by
  obtain ⟨view, hview, hget⟩ := List.exists_of_findSome?_eq_some hv
  exact (h view hview).of_mem_parts (Value.mem_parts_of_get? hget)

theorem Shallow.lookup (h : context.Shallow host ids n) {path : KeyPath}
    (hv : (context.lookup fuel path).Gives host (some v)) : v.Shallow host ids n := by
  rcases path with _ | _ | ⟨key, keys⟩
  · cases hv
    exact h _ (List.mem_cons_self ..)
  · cases hv
  · rw [Context.lookup] at hv
    split at hv
    · cases hv
    · rename_i found hf
      obtain ⟨settled, hs, hv⟩ := Plan.gives_bind.1 hv
      exact descend ((h.find? hf).settle hs) hv

theorem confined_descend {keys : List Text} (h : start.Shallow host ids n) (hle : n ≤ fuel) :
    (Context.descend fuel keys start).Confined host ids (keys.length * n) := by
  induction keys generalizing start with
  | nil => trivial
  | cons key keys ih =>
    rw [Context.descend]
    split
    · trivial
    · rename_i next hn
      have hnext := h.of_mem_parts (Value.mem_parts_of_get? hn)
      have hboth := (hnext.confined_settle hle).bind fun settled hs => ih (hnext.settle hs)
      exact hboth.mono (by simp [Nat.succ_mul, Nat.add_comm])

theorem exists_confined_lookup (host : Host) (ids : PendingId → Prop) (n : Nat) (path : KeyPath) :
    ∃ weight, ∀ (context : Context) fuel, context.Shallow host ids n → n ≤ fuel →
      (context.lookup fuel path).Confined host ids weight := by
  rcases path with _ | _ | ⟨key, keys⟩
  · exact ⟨0, fun _ _ _ _ => trivial⟩
  · exact ⟨0, fun _ _ _ _ => trivial⟩
  · refine ⟨n + keys.length * n, fun context fuel h hle => ?_⟩
    rw [Context.lookup]
    split
    · trivial
    · rename_i found hf
      have hfound := h.find? hf
      exact (hfound.confined_settle hle).bind fun settled hs => confined_descend (hfound.settle hs) hle

end Context

namespace Render

variable {setting : Setting} {expand : Expand} {context : Context} {weight depth : Nat}

theorem deciding_of_shallow {found : Option Value}
    (h : ∀ v, found = some v → v.Shallow host ids n) : deciding fuel found = .done found := by
  unfold deciding
  split
  · cases h _ rfl with
    | intro data => exact absurd rfl (data _)
  · rfl

theorem confined_interpolated {found : Option Value}
    (h : ∀ v, found = some v → v.Shallow host ids n)
    (hdeep : ∀ v, found = some v → (v.settleDeep fuel).Confined host ids weight) :
    (interpolated fuel setting expand context found).Confined host ids weight := by
  unfold interpolated
  split
  · trivial
  · trivial
  · cases h _ rfl with
    | intro data => exact absurd rfl (data _)
  · trivial
  · exact (hdeep _ rfl).bind_done

theorem confined_shown {children : Context → Plan Text} {raw : Thunk Text} {tags : Tags}
    {v : Value} (h : context.Shallow host ids n) (hv : v.Shallow host ids n) (hle : n ≤ fuel)
    (hc : ∀ inside, inside.Shallow host ids n → (children inside).Confined host ids weight) :
    (shown fuel expand children raw tags context v).Confined host ids
      (n * (n + weight + 1) + weight) := by
  have hone : ∀ inside, inside.Shallow host ids n →
      (children inside).Confined host ids (n * (n + weight + 1) + weight) :=
    fun inside hi => (hc inside hi).mono (Nat.le_add_left ..)
  unfold shown
  split
  · rename_i items
    cases hv with
    | @intro n v _ _ narrow parts =>
      have hitems : (Plan.each items fun item =>
          (item.settle fuel).bind fun v => children (context.push v)).Confined host ids
            (items.length * (n + 1 + weight + 1)) := .each fun item hi => by
        have hitem := (parts item hi).mono (Nat.le_succ n)
        exact (hitem.confined_settle hle).bind fun settled hs => hc _ (h.push (hitem.settle hs))
      have hlength : items.length * (n + 1 + weight + 1) ≤ (n + 1) * (n + 1 + weight + 1) :=
        Nat.mul_le_mul_right _ (Nat.le_succ_of_le narrow)
      exact hitems.bind_done.mono (by omega)
  · exact hone _ (h.push hv)
  · cases hv with
    | intro data => exact absurd rfl (data _)
  · exact hone _ h

theorem confined_together {siblings : List (Context → Plan Text)}
    (h : ∀ plan ∈ siblings, (plan context).Confined host ids weight) :
    (together siblings context).Confined host ids (siblings.length * (weight + 1)) :=
  (Confined.each h).bind_done

/-- From a bound on, the plan is confined in all contexts of such data, and there is no more to do than
that. -/
def Light (host : Host) (ids : PendingId → Prop) (n : Nat) (plan : Nat → Context → Plan Text) : Prop :=
  ∃ bound, ∀ fuel context, bound ≤ fuel → context.Shallow host ids n →
    (plan fuel context).Confined host ids bound

/-- Rendering these nodes is light. -/
abbrev Nests (host : Host) (ids : PendingId → Prop) (n : Nat) (setting : Setting)
    (ns : List Node) : Prop :=
  Light host ids n fun fuel => text setting fuel ns

/-- So is rendering what the partials among these nodes bring. -/
def Expands (host : Host) (ids : PendingId → Prop) (n : Nat) (setting : Setting)
    (ns : List Node) : Prop :=
  ∀ name indent span source nested, Within (.inclusion name indent span) ns →
    setting.partials name = some source →
    Template.compile (indent.apply source) setting.tags = .ok nested →
    Nests host ids n setting nested

theorem Expands.of_subset {ns more : List Node} (h : Expands host ids n setting more)
    (hs : ns ⊆ more) : Expands host ids n setting ns :=
  fun name indent span source nested hw => h name indent span source nested (hw.of_subset hs)

theorem light_interpolation (path : KeyPath) (escape : Bool) (span : Span) :
    Light host ids n fun fuel =>
      node fuel setting (expanding setting fuel) (.interpolation path escape span) := by
  obtain ⟨own, hown⟩ := Context.exists_confined_lookup host ids n path
  obtain ⟨deep, hdeep⟩ := Value.exists_confined_settleDeep host ids n
  refine ⟨n + (own + (deep + 0)), fun fuel context hle h => ?_⟩
  have hplan : (node fuel setting (expanding setting fuel) (.interpolation path escape span)
      context).Confined host ids (own + (deep + 0)) := by
    refine (hown context fuel h (by omega)).bind fun found hf => ?_
    have hfound : ∀ v, found = some v → v.Shallow host ids n := fun v hv => h.lookup (hv ▸ hf)
    refine (confined_interpolated hfound fun v hv => hdeep v fuel (hfound v hv) (by omega)).bind ?_
    intro shown _
    cases shown <;> trivial
  exact hplan.mono (Nat.le_add_left ..)

theorem light_inclusion {name : Text} {indent : Indent} {span : Span}
    (h : Expands host ids n setting [.inclusion name indent span]) :
    Light host ids n fun fuel =>
      node fuel setting (expanding setting fuel) (.inclusion name indent span) := by
  simp only [node]
  cases hs : setting.partials name with
  | none => exact ⟨0, fun _ _ _ _ => trivial⟩
  | some source =>
    cases hc : Template.compile (indent.apply source) setting.tags with
    | error error =>
      refine ⟨1, fun fuel context hle _ => ?_⟩
      obtain ⟨fuel, rfl⟩ : ∃ k, fuel = k + 1 := ⟨fuel - 1, by omega⟩
      intro nested hn
      cases hc.symm.trans hn
    | ok nested =>
      obtain ⟨bound, hb⟩ := h name indent span source nested (.here (List.mem_singleton_self _)) hs hc
      refine ⟨bound + 1, fun fuel context hle hcontext => ?_⟩
      obtain ⟨fuel, rfl⟩ : ∃ k, fuel = k + 1 := ⟨fuel - 1, by omega⟩
      intro nodes hn
      obtain rfl := Except.ok.inj (hc.symm.trans hn)
      exact (hb fuel context (by omega) hcontext).mono (Nat.le_succ _)

theorem light_block {path : KeyPath} {inverted : Bool} {children : List Node} {raw : Thunk Text}
    {tags : Tags} {span : Span}
    (h : Light host ids n fun fuel =>
      together (nodes fuel setting (expanding setting fuel) children)) :
    Light host ids n fun fuel =>
      node fuel setting (expanding setting fuel) (.block path inverted children raw tags span) := by
  obtain ⟨own, hown⟩ := Context.exists_confined_lookup host ids n path
  obtain ⟨weight, hw⟩ := h
  refine ⟨n + (own + (n * (n + weight + 1) + weight)), fun fuel context hle hc => ?_⟩
  have hplan : (node fuel setting (expanding setting fuel) (.block path inverted children raw tags span)
      context).Confined host ids (own + (n * (n + weight + 1) + weight)) := by
    refine (hown context fuel hc (by omega)).bind fun found hf => ?_
    have hfound : ∀ v, found = some v → v.Shallow host ids n := fun v hv => hc.lookup (hv ▸ hf)
    have hchildren := fun inside => hw fuel inside (by omega)
    rw [deciding_of_shallow hfound]
    change Confined host ids _ (if inverted then _ else _)
    split
    · split
      · trivial
      · exact (hchildren context hc).mono (Nat.le_add_left ..)
    · split
      · split
        · exact confined_shown hc (hfound _ rfl) (by omega) hchildren
        · trivial
      · trivial
  exact hplan.mono (Nat.le_add_left ..)

theorem length_nodes (fuel : Nat) (setting : Setting) (expand : Expand) (ns : List Node) :
    (nodes fuel setting expand ns).length = ns.length := by
  induction ns with
  | nil => rfl
  | cons one ns ih => exact congrArg Nat.succ ih

theorem light_together {ns : List Node}
    (h : ∃ bound, ∀ fuel context, bound ≤ fuel → context.Shallow host ids n →
      ∀ plan ∈ nodes fuel setting (expanding setting fuel) ns,
        (plan context).Confined host ids bound) :
    Light host ids n fun fuel => together (nodes fuel setting (expanding setting fuel) ns) := by
  obtain ⟨bound, hb⟩ := h
  refine ⟨bound + (ns.length * (bound + 1)), fun fuel context hle hc => ?_⟩
  have hplans := confined_together (hb fuel context (by omega) hc)
  rw [length_nodes] at hplans
  exact hplans.mono (Nat.le_add_left ..)

mutual
theorem light_node : (one : Node) → Expands host ids n setting [one] →
    Light host ids n fun fuel => node fuel setting (expanding setting fuel) one
  | .text _, _ | .comment _, _ => ⟨0, fun _ _ _ _ => trivial⟩
  | .interpolation path escape span, _ => light_interpolation path escape span
  | .inclusion _ _ _, h => light_inclusion h
  | .block _ _ children _ _ _, h =>
    light_block (light_together (light_nodes children fun name indent span source nested hw =>
      h name indent span source nested (.inside (List.mem_singleton_self _) hw)))

theorem light_nodes : (ns : List Node) → Expands host ids n setting ns →
    ∃ bound, ∀ fuel context, bound ≤ fuel → context.Shallow host ids n →
      ∀ plan ∈ nodes fuel setting (expanding setting fuel) ns,
        (plan context).Confined host ids bound
  | [], _ => ⟨0, fun _ _ _ _ _ hm => by cases hm⟩
  | one :: ns, h => by
    obtain ⟨bound, hb⟩ := light_node one (h.of_subset (by simp))
    obtain ⟨more, hm⟩ := light_nodes ns (h.of_subset (List.subset_cons_self one ns))
    refine ⟨max bound more, fun fuel context hle hc plan hp => ?_⟩
    rcases List.mem_cons.1 hp with rfl | hp
    · exact (hb fuel context (by omega) hc).mono (le_max_left ..)
    · exact (hm fuel context (by omega) hc plan hp).mono (le_max_right ..)
end

/-- What is light to include is light to render around it. -/
theorem Expands.nests {ns : List Node} (h : Expands host ids n setting ns) :
    Nests host ids n setting ns := by
  have hsame : (fun fuel => text setting fuel ns) = fun fuel =>
      siblings fuel setting (expanding setting fuel) ns :=
    funext fun fuel => funext (text_eq setting fuel ns)
  rw [Nests, hsame]
  exact light_together (light_nodes ns h)

end Render

/-- From a bound on, the plan of a render is confined, if its nodes are light and its view has only so
many layers. -/
theorem Request.exists_confined_plan {request : Request} {config : Config}
    (hns : ∀ source ns, request.template = .string source →
      Template.compile source (request.setting config).tags = .ok ns →
      Render.Nests host ids n (request.setting config) ns)
    (hview : request.view.Shallow host ids n) :
    ∃ bound, ∀ fuel, bound ≤ fuel → (request.plan fuel config).Confined host ids bound := by
  unfold plan
  split
  · rename_i source hs
    cases hc : Template.compile source (request.setting config).tags with
    | error error =>
      refine ⟨0, fun fuel _ ns hn => ?_⟩
      cases hc.symm.trans hn
    | ok ns =>
      obtain ⟨bound, hb⟩ := hns source ns hs hc
      refine ⟨n + bound, fun fuel hle nodes hn => ?_⟩
      obtain rfl := Except.ok.inj (hc.symm.trans hn)
      refine (hview.confined_settle (by omega)).bind fun view hv => ?_
      exact hb fuel (.root view) (by omega) (Context.shallow_root (hview.settle hv))
  · exact ⟨0, fun _ _ => trivial⟩

end Stencil
