import Stencil.Proofs.Plan.Alike
import Stencil.Proofs.Plan.Causes
import Stencil.Proofs.Template.Within
import Stencil.Proofs.Value.Finite

/-!
# Data that a render does not read

A template reads the entries of its view under the first keys of its paths, and no others. So renders
of views that agree there have plans that are alike. The views around a place in a section may be the
whole view again, where a path is a single dot; there too they are looked into by such keys only.
-/

namespace Stencil

variable {host : Host} {ids : PendingId → Prop} {known : Text → Tags → Prop} {fuel : Nat}

/-- The key that a path is looked up by in the views around it. -/
def KeyPath.first? : KeyPath → Option Text
  | .implicit => none
  | .keys list => list.head?

/-- A tag in the tree has a path with this first key. -/
def Node.Mentions (ns : List Node) (key : Text) : Prop :=
  ∃ n path, Within n ns ∧ n.path? = some path ∧ path.first? = some key

namespace Value

/-- From the value one comes to no lambda, and to such pending values only. -/
structure Tame (host : Host) (ids : PendingId → Prop) (v : Value) : Prop where
  free : LambdaFree host v
  own : ∀ id, Reaches host v (.pending id) → ids id

variable {v w : Value}

theorem Tame.of_mem_parts (h : v.Tame host ids) (hp : w ∈ v.parts host) : w.Tame host ids :=
  ⟨fun called hr => h.free called (reaches_of_mem_parts hp hr),
    fun id hr => h.own id (reaches_of_mem_parts hp hr)⟩

theorem Tame.not_lambda {called : Lambda} (h : (Value.lambda called).Tame host ids) : False :=
  h.free called (.refl _)

theorem Tame.alike_settle {α : Type} {f g : Value → Plan α} (h : v.Tame host ids)
    (hfg : ∀ w, w.Tame host ids → (f w).Alike host known ids (g w)) :
    ((v.settle fuel).bind f).Alike host known ids ((v.settle fuel).bind g) := by
  induction fuel generalizing v with
  | zero =>
    cases v with
    | pending => exact .exhausted
    | _ => exact hfg _ h
  | succ fuel ih =>
    cases v with
    | pending id =>
      exact .await (h.own id (.refl _)) fun w hw => ih (h.of_mem_parts (mem_parts_pending.2 hw))
    | _ => exact hfg _ h

theorem Tame.alike_settleDeep (h : v.Tame host ids) :
    (v.settleDeep fuel).Alike host known ids (v.settleDeep fuel) := by
  induction fuel generalizing v with
  | zero => exact .exhausted
  | succ fuel ih =>
    refine h.alike_settle fun settled hs => ?_
    split
    · split
      · exact .done _
      · exact .bind (.each fun item hi => ih (hs.of_mem_parts hi)) fun _ => .done _
    · exact .done _

end Value

section
variable (host : Host) (ids : PendingId → Prop) (entries others : List (Text × Value))

/-- The entries under this key are the same, and tame. -/
structure Shared (key : Text) : Prop where
  same : others.lookup key = entries.lookup key
  tame : ∀ v, entries.lookup key = some v → v.Tame host ids

/-- The same tame value, or the two root views. -/
inductive Value.Beside : Value → Value → Prop
  | same {v : Value} (h : v.Tame host ids) : Beside v v
  | roots : Beside (.map entries) (.map others)

/-- Two contexts that differ only where the root views stand. -/
structure Context.Beside (context other : Context) : Prop where
  view : Value.Beside host ids entries others context.view other.view
  outer : List.Forall₂ (Value.Beside host ids entries others) context.outer other.outer

end

section
variable {entries others : List (Text × Value)} {context other : Context} {key : Text}
  {keys : List Text} {v : Value}

namespace Context

theorem Beside.push (h : Beside host ids entries others context other) {w : Value}
    (hv : Value.Beside host ids entries others v w) :
    Beside host ids entries others (context.push v) (other.push w) :=
  ⟨hv, .cons h.view h.outer⟩

/-- What a shared key finds. -/
theorem find?_beside (h : Beside host ids entries others context other)
    (hk : Shared host ids entries others key) :
    other.find? key = context.find? key ∧
      ∀ v, context.find? key = some v → v.Tame host ids := by
  have hviews : List.Forall₂ (Value.Beside host ids entries others) context.views other.views :=
    .cons h.view h.outer
  unfold find?
  generalize context.views = front at hviews
  generalize other.views = back at hviews
  induction hviews with
  | nil => exact ⟨rfl, fun v hv => by cases hv⟩
  | @cons view again _ _ hview _ ih =>
    have hget : again.get? key = view.get? key ∧ ∀ v, view.get? key = some v → v.Tame host ids := by
      cases hview with
      | same h => exact ⟨rfl, fun v hv => h.of_mem_parts (Value.mem_parts_of_get? hv)⟩
      | roots => exact ⟨hk.same, hk.tame⟩
    simp only [List.findSome?_cons, hget.1]
    cases hv : view.get? key with
    | none => exact ih
    | some found =>
      refine ⟨rfl, ?_⟩
      rintro _ ⟨⟩
      exact hget.2 found hv

variable {α : Type} {f g : Option Value → Plan α}

theorem alike_descend (h : v.Tame host ids)
    (hfg : ∀ found, (∀ v, found = some v → v.Tame host ids) →
      (f found).Alike host known ids (g found)) :
    ((descend fuel keys v).bind f).Alike host known ids ((descend fuel keys v).bind g) := by
  induction keys generalizing v with
  | nil =>
    refine hfg (some v) ?_
    rintro _ ⟨⟩
    exact h
  | cons key keys ih =>
    rw [descend]
    split
    · exact hfg none fun _ hv => by cases hv
    · rename_i next hn
      simp only [Plan.bind_eq, Plan.bind_assoc]
      exact (h.of_mem_parts (Value.mem_parts_of_get? hn)).alike_settle fun w hw => ih hw

/-- A path with a shared first key finds the same in both contexts, or it finds the two root views. -/
theorem alike_lookup (h : Beside host ids entries others context other) {path : KeyPath}
    (hk : ∀ key, path.first? = some key → Shared host ids entries others key)
    (hfg : ∀ found, (∀ v, found = some v → v.Tame host ids) →
      (f found).Alike host known ids (g found))
    (hroots : (f (some (.map entries))).Alike host known ids (g (some (.map others)))) :
    ((context.lookup fuel path).bind f).Alike host known ids ((other.lookup fuel path).bind g) := by
  obtain ⟨view, outer⟩ := context
  obtain ⟨view', outer'⟩ := other
  rcases path with _ | _ | ⟨key, keys⟩
  · obtain ⟨hview, -⟩ := h
    cases hview with
    | same hv =>
      refine hfg (some view) ?_
      rintro _ ⟨⟩
      exact hv
    | roots => exact hroots
  · exact hfg none fun _ hv => by cases hv
  · obtain ⟨hsame, htame⟩ := find?_beside h (hk key rfl)
    rw [lookup, lookup, hsame]
    split
    · exact hfg none fun _ hv => by cases hv
    · rename_i found hf
      simp only [Plan.bind_eq, Plan.bind_assoc]
      exact (htame found hf).alike_settle fun w hw => alike_descend hw hfg

end Context

namespace Render

variable {setting : Setting} {expand : Expand} {path : KeyPath} {ns : List Node}

/-- Nothing is called for a value that is no lambda. -/
theorem deciding_of_tame {found : Option Value} (h : ∀ v, found = some v → v.Tame host ids) :
    deciding fuel found = .done found := by
  unfold deciding
  split
  · exact (h _ rfl).not_lambda.elim
  · rfl

theorem alike_interpolated {found : Option Value} (h : ∀ v, found = some v → v.Tame host ids) :
    (interpolated fuel setting expand context found).Alike host known ids
      (interpolated fuel setting expand other found) := by
  unfold interpolated
  split
  · exact .done _
  · exact .done _
  · exact (h _ rfl).not_lambda.elim
  · exact .done _
  · exact (h _ rfl).alike_settleDeep.bind fun _ => .done _

/-- A root view has no text of its own. -/
theorem alike_interpolated_map (context other : Context) (entries others : List (Text × Value)) :
    (interpolated fuel setting expand context (some (.map entries))).Alike host known ids
      (interpolated fuel setting expand other (some (.map others))) := by
  cases fuel with
  | zero => exact .exhausted
  | succ fuel => exact .done _

/-- What is planned for a part of a template in contexts that differ only in the root views. -/
def AlikeIn (host : Host) (known : Text → Tags → Prop) (ids : PendingId → Prop)
    (entries others : List (Text × Value)) (plan : Context → Plan Text) : Prop :=
  ∀ context other, Context.Beside host ids entries others context other →
    (plan context).Alike host known ids (plan other)

theorem alike_shown {children : Context → Plan Text} {raw : Thunk Text} {tags : Tags}
    (hc : AlikeIn host known ids entries others children)
    (h : Context.Beside host ids entries others context other)
    {w : Value} (hv : Value.Beside host ids entries others v w) :
    (shown fuel expand children raw tags context v).Alike host known ids
      (shown fuel expand children raw tags other w) := by
  cases hv with
  | roots => exact hc _ _ (h.push .roots)
  | same hv =>
    cases v with
    | list items =>
      refine .bind (.each fun item hi => ?_) fun _ => .done _
      exact (hv.of_mem_parts hi).alike_settle fun settled hs => hc _ _ (h.push (.same hs))
    | map inside => exact hc _ _ (h.push (.same hv))
    | lambda called => exact hv.not_lambda.elim
    | _ => exact hc _ _ h

theorem alike_together {siblings : List (Context → Plan Text)}
    (h : ∀ plan ∈ siblings, AlikeIn host known ids entries others plan) :
    AlikeIn host known ids entries others (together siblings) := fun context other hc =>
  .bind (.each fun plan hp => h plan hp context other hc) fun _ => .done _

theorem alike_interpolation {escape : Bool} {span : Span}
    (hk : ∀ key, path.first? = some key → Shared host ids entries others key) :
    AlikeIn host known ids entries others
      (node fuel setting expand (.interpolation path escape span)) := by
  intro context other hc
  refine Context.alike_lookup hc hk (fun found hf => ?_) ?_
  · refine (alike_interpolated hf).bind fun shown => ?_
    cases shown <;> exact .done _
  · refine (alike_interpolated_map context other entries others).bind fun shown => ?_
    cases shown <;> exact .done _

theorem alike_inclusion {name : Text} {indent : Indent} {span : Span}
    (he : ∀ source tags, AlikeIn host known ids entries others (expand source tags)) :
    AlikeIn host known ids entries others (node fuel setting expand (.inclusion name indent span)) := by
  intro context other hc
  unfold node
  split
  · exact .done _
  · exact he _ _ context other hc

theorem alike_block {inverted : Bool} {children : List Node} {raw : Thunk Text} {tags : Tags}
    {span : Span} (hk : ∀ key, path.first? = some key → Shared host ids entries others key)
    (h : AlikeIn host known ids entries others (together (nodes fuel setting expand children))) :
    AlikeIn host known ids entries others
      (node fuel setting expand (.block path inverted children raw tags span)) := by
  intro context other hc
  refine Context.alike_lookup hc hk (fun found hf => ?_) ?_
  · rw [deciding_of_tame hf]
    change Plan.Alike host known ids (if inverted then _ else _) (if inverted then _ else _)
    split
    · split
      · exact .done _
      · exact h context other hc
    · split
      · split
        · exact alike_shown h hc (.same (hf _ rfl))
        · exact .done _
      · exact .done _
  · change Plan.Alike host known ids (if inverted then _ else _) (if inverted then _ else _)
    split
    · exact .done _
    · simp only [Value.isTruthy, if_true]
      exact alike_shown h hc .roots

mutual
theorem alike_node (he : ∀ source tags, AlikeIn host known ids entries others (expand source tags)) :
    (one : Node) → (∀ key, Node.Mentions [one] key → Shared host ids entries others key) →
    AlikeIn host known ids entries others (node fuel setting expand one)
  | .text _, _ | .comment _, _ => fun _ _ _ => .done _
  | .interpolation path escape span, hk =>
    alike_interpolation fun key hkey =>
      hk key ⟨_, path, .here (List.mem_singleton_self _), rfl, hkey⟩
  | .inclusion _ _ _, _ => alike_inclusion he
  | .block path _ children _ _ _, hk =>
    alike_block (fun key hkey => hk key ⟨_, path, .here (List.mem_singleton_self _), rfl, hkey⟩)
      (alike_together (alike_nodes he children fun key hkey => by
        obtain ⟨one, path, hw, hp, hfirst⟩ := hkey
        exact hk key ⟨one, path, .inside (List.mem_singleton_self _) hw, hp, hfirst⟩))

theorem alike_nodes (he : ∀ source tags, AlikeIn host known ids entries others (expand source tags)) :
    (ns : List Node) → (∀ key, Node.Mentions ns key → Shared host ids entries others key) →
    ∀ plan ∈ nodes fuel setting expand ns, AlikeIn host known ids entries others plan
  | [], _ => fun _ hm => by cases hm
  | one :: ns, hk => fun plan hp => by
    have hmentions : ∀ some ⊆ one :: ns, ∀ key, Node.Mentions some key →
        Shared host ids entries others key := by
      rintro some hs key ⟨n, path, hw, hp, hfirst⟩
      exact hk key ⟨n, path, hw.of_subset hs, hp, hfirst⟩
    rcases List.mem_cons.1 hp with rfl | hp
    · exact alike_node he one (hmentions _ (by simp))
    · exact alike_nodes he ns (hmentions _ (List.subset_cons_self one ns)) plan hp
end

/-- The text of nodes that mention shared keys only, if that is so for whatever is known. -/
theorem alike_text (hknown : ∀ source tags ns, known source tags →
      Template.compile source tags = .ok ns →
      ∀ key, Node.Mentions ns key → Shared host ids entries others key)
    (hk : ∀ key, Node.Mentions ns key → Shared host ids entries others key) :
    AlikeIn host known ids entries others (text setting fuel ns) := by
  induction fuel generalizing ns with
  | zero => exact alike_together (alike_nodes (fun _ _ _ _ _ => .exhausted) ns hk)
  | succ fuel ih =>
    refine alike_together (alike_nodes (fun source tags context other hc => ?_) ns hk)
    exact .compile fun hs nested hn => ih (hknown source tags nested hs hn) context other hc

end Render

end

/-- The plans of a render and of the same render with another root view. -/
theorem Request.alike_plan {request : Request} {config : Config} {entries others : List (Text × Value)}
    (hview : request.view = .map entries)
    (hknown : ∀ source tags ns, known source tags → Template.compile source tags = .ok ns →
      ∀ key, Node.Mentions ns key → Shared host ids entries others key) :
    (request.plan fuel config).Alike host known ids
      ({ request with view := .map others }.plan fuel config) := by
  obtain ⟨template, view, partials, tags, escape⟩ := request
  subst hview
  unfold plan
  cases template with
  | string source =>
    refine .compile fun hk nodes hn => ?_
    have hsettle : ∀ entries, (Value.map entries).settle fuel = .done (.map entries) := fun entries =>
      Value.settle_of_kind_ne (by simp [Value.kind]) fuel
    rw [hsettle, hsettle]
    exact Render.alike_text hknown (hknown source _ nodes hk hn) (.root _) (.root _) ⟨.roots, .nil⟩
  | _ => exact .fail _

end Stencil
